import WhileLang.CommandLine.Arguments

/-!
# Arguments and settings

Settings that are read from arguments are well-formed: no flag is set twice and no file is without a
name (`wellFormed_of_parseArguments`). Well-formed settings can be written as arguments, which are
read back as the same settings (`parseArguments_arguments`).
-/

namespace WhileLang

/-- No flag is set twice, and every file has a name. -/
structure Settings.WellFormed (s : Settings String) : Prop where
  flags : s.flags.Nodup
  files : "" ∉ s.files

/-! ## What is read is well-formed -/

namespace Reading

/-- If reading goes on, it does so with well-formed settings. -/
def WellFormedIfRead (next : Except Stop Reading) : Prop :=
  ∀ r, next = .ok r → r.settings.WellFormed

namespace WellFormedIfRead

theorem ok {r : Reading} (h : r.settings.WellFormed) : WellFormedIfRead (.ok r) := by
  rintro _ ⟨⟩
  exact h

theorem error (stop : Stop) : WellFormedIfRead (.error stop) := nofun

theorem bind {next : Except Stop Reading} {f : Reading → Except Stop Reading}
    (h : WellFormedIfRead next)
    (hf : ∀ r, r.settings.WellFormed → WellFormedIfRead (f r)) : WellFormedIfRead (next >>= f) := by
  cases next with
  | error stop => exact error stop
  | ok r => exact hf r (h r rfl)

end WellFormedIfRead

open WellFormedIfRead

variable {r : Reading} (h : r.settings.WellFormed)

include h

theorem wellFormed_setMode (value : String) : WellFormedIfRead (r.setMode value) := by
  unfold setMode
  split
  · exact error _
  · split
    · exact error _
    · exact ok ⟨h.flags, h.files⟩

theorem wellFormed_settle : WellFormedIfRead r.settle := by
  unfold settle
  split
  · exact ok h
  · exact error _
  · exact wellFormed_setMode h _
  · next names _ =>
    split
    · exact error _
    · next hnames =>
      refine ok ⟨h.flags, fun hmem => ?_⟩
      rcases List.mem_append.mp hmem with hmem | hmem
      · exact h.files hmem
      · exact hnames hmem

theorem wellFormed_takeOption (name : OptionName) (full : Bool) :
    WellFormedIfRead (r.takeOption name full) := by
  refine (wellFormed_settle h).bind fun r h => ?_
  cases name with
  | help => exact error _
  | mode => exact ok ⟨h.flags, h.files⟩
  | flag flag =>
    dsimp only
    split
    · exact error _
    · next hnew =>
      have hfresh : flag ∉ r.settings.flags := fun hmem => hnew (decide_eq_true hmem)
      refine ok ⟨?_, h.files⟩
      exact List.nodup_append.mpr ⟨h.flags, List.pairwise_singleton _ _, by
        rintro other hmem _ hlast rfl
        exact hfresh (List.mem_singleton.mp hlast ▸ hmem)⟩

theorem wellFormed_takeJoinedMode (value : String) :
    WellFormedIfRead (r.takeJoinedMode value) :=
  (wellFormed_settle h).bind fun _ h => wellFormed_setMode h value

theorem wellFormed_takeLong (name : String) (value? : Option String) :
    WellFormedIfRead (r.takeLong name value?) := by
  unfold takeLong
  split
  · exact error _
  · exact wellFormed_takeJoinedMode h _
  · exact error _
  · exact wellFormed_takeOption h _ _

theorem wellFormed_takeShort (letters : List Char) : WellFormedIfRead (r.takeShort letters) := by
  induction letters generalizing r with
  | nil => exact ok h
  | cons letter rest ih =>
    unfold takeShort
    split
    · exact error _
    · exact wellFormed_takeOption h _ _
    · exact wellFormed_takeJoinedMode h _
    · exact wellFormed_takeJoinedMode h _
    · exact (wellFormed_takeOption h _ _).bind fun r h => ih h

theorem wellFormed_takeFile (name : String) : WellFormedIfRead (r.takeFile name) := by
  unfold takeFile
  split
  · exact ok h
  · exact (wellFormed_settle h).bind fun r h => ok h

theorem wellFormed_takePlain (argument : String) : WellFormedIfRead (r.takePlain argument) := by
  unfold takePlain
  split
  · exact ok h
  · exact wellFormed_takeFile h argument

theorem wellFormed_takeArgument (argument : String) :
    WellFormedIfRead (r.takeArgument argument) := by
  unfold takeArgument
  split
  · exact wellFormed_takeLong h _ _
  · exact wellFormed_takeShort h _
  · exact wellFormed_takePlain h _

theorem wellFormed_takeFiles (names : List String) :
    WellFormedIfRead (names.foldlM takeFile r) := by
  induction names generalizing r with
  | nil => exact ok h
  | cons name names ih =>
    rw [List.foldlM_cons]
    exact (wellFormed_takeFile h name).bind fun r h => ih h

theorem wellFormed_takeAll (arguments : List String) : WellFormedIfRead (r.takeAll arguments) := by
  induction arguments generalizing r with
  | nil => exact wellFormed_settle h
  | cons argument arguments ih =>
    unfold takeAll
    split
    · next heq => cases heq
    · next names heq =>
      exact (wellFormed_takeFiles h _).bind fun r h => wellFormed_settle h
    · next heq =>
      cases heq
      exact (wellFormed_takeArgument h argument).bind fun r h => ih h

end Reading

theorem wellFormed_of_parseArguments {arguments : List String} {s : Settings String}
    (h : parseArguments arguments = .ok s) : s.WellFormed ∧ s.files ≠ [] := by
  have hread := Reading.wellFormed_takeAll (r := .initial) ⟨List.nodup_nil, List.not_mem_nil⟩
    arguments
  unfold parseArguments at h
  cases hall : Reading.initial.takeAll arguments with
  | error stop =>
    rw [hall] at h
    cases h
  | ok r =>
    rw [hall] at h
    have hwell := hread r hall
    change (if r.settings.files.isEmpty then _ else _) = _ at h
    split at h
    · cases h
    · next hfiles =>
      cases h
      exact ⟨hwell, fun hnil => hfiles (List.isEmpty_iff.mpr hnil)⟩

/-! ## Settings as arguments -/

/-- The argument that sets a flag. -/
def Flag.argument : Flag → String
  | traceRules => "--trace-procedures"
  | traceTokens => "--trace-tokens"
  | noTree => "--no-ast"
  | view => "--view"
  | verbose => "--verbose"

/-- The argument that sets the mode. -/
def Mode.argument : Mode → String
  | lexical => "--mode=lexical"
  | syntactic => "--mode=syntax"

/-- Arguments for settings: the flags and the mode, and after the end of the options the files. -/
def Settings.arguments (s : Settings String) : List String :=
  s.flags.map Flag.argument ++ s.mode?.toList.map Mode.argument ++ "--" :: s.files

namespace Reading

/-- What is read when nothing is pending and no file was named. -/
def ofOptions (mode? : Option Mode) (flags : List Flag) : Reading := ⟨⟨[], mode?, flags⟩, .nothing⟩

theorem takeAll_flag (flags : List Flag) {flag : Flag} (h : flag ∉ flags)
    (arguments : List String) :
    (ofOptions none flags).takeAll (flag.argument :: arguments) =
      (ofOptions none (flags ++ [flag])).takeAll arguments := by
  have hnew : (ofOptions none flags).settings.has flag = false := decide_eq_false h
  have hstep : (ofOptions none flags).takeArgument flag.argument =
      .ok (ofOptions none (flags ++ [flag])) := by
    have htake : (ofOptions none flags).takeArgument flag.argument =
        (ofOptions none flags).takeOption (.flag flag) true := by cases flag <;> rfl
    rw [htake]
    change (if (ofOptions none flags).settings.has flag then _ else _) = _
    rw [hnew]
    rfl
  have hall : (ofOptions none flags).takeAll (flag.argument :: arguments) =
      (ofOptions none flags).takeArgument flag.argument >>= fun r => r.takeAll arguments := by
    cases flag <;> rfl
  rw [hall, hstep]
  rfl

theorem takeAll_flags {flags later : List Flag} (h : (flags ++ later).Nodup)
    (arguments : List String) :
    (ofOptions none flags).takeAll (later.map Flag.argument ++ arguments) =
      (ofOptions none (flags ++ later)).takeAll arguments := by
  induction later generalizing flags with
  | nil => rw [List.append_nil, List.map_nil, List.nil_append]
  | cons flag later ih =>
    have hnew : flag ∉ flags := fun hmem =>
      (List.nodup_append.mp h).2.2 flag hmem flag List.mem_cons_self rfl
    rw [List.append_cons] at h ⊢
    rw [List.map_cons, List.cons_append, takeAll_flag flags hnew, ih h]

theorem takeAll_mode (flags : List Flag) (mode? : Option Mode) (arguments : List String) :
    (ofOptions none flags).takeAll (mode?.toList.map Mode.argument ++ arguments) =
      (ofOptions mode? flags).takeAll arguments := by
  rcases mode? with _ | _ | _ <;> rfl

theorem takeFiles_pending (s : Settings String) (names later : List String) :
    later.foldlM takeFile ⟨s, .files names⟩ = .ok ⟨s, .files (names ++ later)⟩ := by
  induction later generalizing names with
  | nil => rw [List.append_nil]; rfl
  | cons name later ih =>
    rw [List.foldlM_cons, List.append_cons]
    exact ih (names ++ [name])

theorem takeAll_files (mode? : Option Mode) (flags : List Flag) {files : List String}
    (h : "" ∉ files) :
    (ofOptions mode? flags).takeAll ("--" :: files) = .ok ⟨⟨files, mode?, flags⟩, .nothing⟩ := by
  cases files with
  | nil => rfl
  | cons name files =>
    have hpending := takeFiles_pending ⟨[], mode?, flags⟩ [name] files
    change (files.foldlM takeFile ⟨⟨[], mode?, flags⟩, .files [name]⟩ >>= settle) = _
    rw [hpending]
    exact if_neg h

end Reading

/-- The arguments for settings are read as these settings. -/
theorem parseArguments_arguments {s : Settings String} (h : s.WellFormed) (hfiles : s.files ≠ []) :
    parseArguments s.arguments = .ok s := by
  obtain ⟨files, mode?, flags⟩ := s
  have hread : Reading.initial.takeAll (Settings.arguments ⟨files, mode?, flags⟩) =
      .ok ⟨⟨files, mode?, flags⟩, .nothing⟩ := by
    have hflags : ([] ++ flags).Nodup := h.flags
    unfold Settings.arguments
    rw [List.append_assoc]
    exact (Reading.takeAll_flags hflags _).trans
      ((Reading.takeAll_mode flags mode? _).trans (Reading.takeAll_files mode? flags h.files))
  unfold parseArguments
  rw [hread]
  exact if_neg fun hnil => hfiles (List.isEmpty_iff.mp hnil)

end WhileLang
