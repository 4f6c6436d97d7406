import TradingChartViewer.Configuration.Precedence

/-!
# The two loops over the command line

The constructor looks for `--config` in `argv`, and `parseCli_` reads all
options, each passing over the values of the options it knows.

* `spaced_reads`: one loop alone never reads the value of an option it has read;
* `NoHiddenConfig`: no value of another option asks for a file;
  `configReads_eq_filter`, `cliConfigPath_eq_configFile`: then the constructor reads
  what `parseCli_` reads, and looks for the same file;
* `readOnce_iff`: that is when no argument is both a value and an option;
* `Startup.lawful_iff`: when each setting is the one that goes first and no argument
  is read twice.
-/

namespace TCV.Configuration

/-! ## One loop -/

section

variable {readArg : List Char → CliArg} {i : Nat} {arg : List Char}
  {rest : List (Option (List Char))}

theorem reads_other (h : readArg arg = .other) :
    reads readArg i (some arg :: rest) = reads readArg (i + 1) rest := by
  conv_lhs => unfold reads
  rw [if_pos h]

theorem ne_other_of_takesNext {option : CliArg} (h : option.takesNext = true) : option ≠ .other :=
  fun e => by rw [e] at h; cases h

theorem reads_take (next : List Char) (h : (readArg arg).takesNext = true) :
    reads readArg i (some arg :: some next :: rest) =
      ⟨i, readArg arg, some next⟩ :: reads readArg (i + 2) rest := by
  conv_lhs => unfold reads
  rw [if_neg (ne_other_of_takesNext h), if_pos h]

theorem reads_alone (hother : readArg arg ≠ .other)
    (h : (readArg arg).takesNext = true → ∀ next rest', rest ≠ some next :: rest') :
    reads readArg i (some arg :: rest) = ⟨i, readArg arg, none⟩ :: reads readArg (i + 1) rest := by
  conv_lhs => unfold reads
  rw [if_neg hother]
  split
  · rename_i htakes
    exact match_missing _ _ rest (h htakes)
  · rfl

end

/-- The first index after an option and its value. -/
def Read.next (r : Read) : Nat := r.consumed.getD r.index + 1

theorem Read.of_consumed {r : Read} {k : Nat} (h : r.consumed = some k) :
    k = r.index + 1 ∧ r.next = k + 1 := by
  refine ⟨?_, by rw [Read.next, h, Option.getD_some]⟩
  obtain ⟨v, -, hv⟩ := Option.map_eq_some_iff.1 h
  exact hv.symm

theorem Read.index_lt_next (r : Read) : r.index < r.next := by
  cases h : r.consumed with
  | none =>
    rw [Read.next, h]
    exact Nat.lt_succ_self _
  | some k =>
    obtain ⟨hk, hnext⟩ := Read.of_consumed h
    omega

theorem index_le_of_mem_reads {readArg : List Char → CliArg} {i : Nat}
    {args : List (Option (List Char))} {r : Read} (h : r ∈ reads readArg i args) : i ≤ r.index := by
  fun_induction reads readArg i args with
  | case1 => cases h
  | case2 i rest ih => exact Nat.le_of_succ_le (ih h)
  | case3 i arg rest hother ih => exact Nat.le_of_succ_le (ih h)
  | case4 i arg hother htakes next rest ih =>
    rcases List.mem_cons.1 h with rfl | h
    · exact Nat.le_refl _
    · exact (Nat.le_add_right i 2).trans (ih h)
  | case5 i arg hother htakes rest hrest ih =>
    rcases List.mem_cons.1 h with rfl | h
    · exact Nat.le_refl _
    · exact Nat.le_of_succ_le (ih h)
  | case6 i arg rest hother htakes ih =>
    rcases List.mem_cons.1 h with rfl | h
    · exact Nat.le_refl _
    · exact Nat.le_of_succ_le (ih h)

theorem spaced_reads (readArg : List Char → CliArg) (i : Nat) (args : List (Option (List Char))) :
    (reads readArg i args).Pairwise fun r r' => r.next ≤ r'.index := by
  fun_induction reads readArg i args with
  | case1 => exact .nil
  | case2 i rest ih => exact ih
  | case3 i arg rest hother ih => exact ih
  | case4 i arg hother htakes next rest ih =>
    exact .cons (fun r' h => index_le_of_mem_reads h) ih
  | case5 i arg hother htakes rest hrest ih =>
    exact .cons (fun r' h => index_le_of_mem_reads h) ih
  | case6 i arg rest hother htakes ih => exact .cons (fun r' h => index_le_of_mem_reads h) ih

/-- No argument is both the value of an option and an option. -/
def ReadOnce (l : List Read) : Prop := ∀ r ∈ l, ∀ r' ∈ l, r.consumed ≠ some r'.index

theorem ReadOnce.mono {l l' : List Read} (h : ReadOnce l) (hsub : l' ⊆ l) : ReadOnce l' :=
  fun r hr r' hr' => h r (hsub hr) r' (hsub hr')

theorem readOnce_of_spaced {l : List Read} (h : l.Pairwise fun r r' => r.next ≤ r'.index) :
    ReadOnce l := by
  induction h with
  | nil => exact fun r hr => nomatch hr
  | @cons r l hr _ ih =>
    intro r₁ hr₁ r₂ hr₂ hconsumed
    obtain ⟨hindex, hnext⟩ := Read.of_consumed hconsumed
    rcases List.mem_cons.1 hr₁ with rfl | hl₁ <;> rcases List.mem_cons.1 hr₂ with rfl | hl₂
    · omega
    · have := hr r₂ hl₂
      omega
    · have := hr r₁ hl₁
      have := r₂.index_lt_next
      omega
    · exact ih r₁ hl₁ r₂ hl₂ hconsumed

/-! ## The constructor's loop beside the other -/

theorem cliArg_inlineConfig (path : List Char) :
    cliArg ("--config=".toList ++ path) = .config path := by
  simp [cliArg]

theorem not_isConfig {arg : List Char} (h : arg ≠ "--config".toList)
    (hinline : ¬"--config=".toList <+: arg) : (cliArg arg).isConfig = false := by
  simp only [cliArg, if_neg h, if_neg hinline, apply_ite CliArg.isConfig]
  simp only [CliArg.isConfig, ite_self]

/-- The constructor knows two of the options, and reads them the same way. -/
theorem configArg_eq (arg : List Char) :
    configArg arg = if (cliArg arg).isConfig then cliArg arg else .other := by
  by_cases h : arg = "--config".toList
  · subst h
    rfl
  · by_cases hinline : "--config=".toList <+: arg
    · obtain ⟨path, rfl⟩ := hinline
      rw [configArg, if_neg h, if_pos (List.prefix_append _ _), cliArg_inlineConfig]
      rfl
    · rw [configArg, if_neg h, if_neg hinline, not_isConfig h hinline]
      rfl

/-- No option but `--config` has a value that asks for a file. -/
def NoHiddenConfig : List (Option (List Char)) → Prop
  | [] => True
  | none :: rest => NoHiddenConfig rest
  | some arg :: rest =>
    if (cliArg arg).takesNext then
      match rest with
      | some next :: rest => (cliArg arg = .takeConfig ∨ configArg next = .other) ∧ NoHiddenConfig rest
      | rest => NoHiddenConfig rest
    else NoHiddenConfig rest

theorem eq_takeConfig {option : CliArg} (htakes : option.takesNext = true)
    (hconfig : option.isConfig = true) : option = .takeConfig := by
  cases option with
  | takeConfig => rfl
  | take => exact absurd hconfig Bool.false_ne_true
  | _ => exact absurd htakes Bool.false_ne_true

theorem noHiddenConfig_take {arg next : List Char} {rest : List (Option (List Char))}
    (h : (cliArg arg).takesNext = true) : NoHiddenConfig (some arg :: some next :: rest) ↔
      (cliArg arg = .takeConfig ∨ configArg next = .other) ∧ NoHiddenConfig rest := by
  rw [NoHiddenConfig, if_pos h]

theorem noHiddenConfig_alone {arg : List Char} {rest : List (Option (List Char))}
    (h : (cliArg arg).takesNext = true → ∀ next rest', rest ≠ some next :: rest') :
    NoHiddenConfig (some arg :: rest) ↔ NoHiddenConfig rest := by
  conv_lhs => unfold NoHiddenConfig
  split
  · rename_i htakes
    exact iff_of_eq (match_missing _ _ rest (h htakes))
  · exact Iff.rfl

section

variable {arg : List Char} {rest : List (Option (List Char))} (i : Nat)

theorem configReads_take (next : List Char) (h : (cliArg arg).takesNext = true) :
    reads configArg i (some arg :: some next :: rest) =
      if (cliArg arg).isConfig then ⟨i, cliArg arg, some next⟩ :: reads configArg (i + 2) rest
      else reads configArg (i + 1) (some next :: rest) := by
  split
  · rename_i hconfig
    have harg : configArg arg = cliArg arg := by rw [configArg_eq, if_pos hconfig]
    rw [reads_take next (harg ▸ h), harg]
  · rename_i hconfig
    rw [reads_other (by rw [configArg_eq, if_neg hconfig])]

theorem configReads_alone
    (h : (cliArg arg).takesNext = true → ∀ next rest', rest ≠ some next :: rest') :
    reads configArg i (some arg :: rest) =
      [⟨i, cliArg arg, none⟩].filter (·.option.isConfig) ++ reads configArg (i + 1) rest := by
  by_cases hconfig : (cliArg arg).isConfig = true
  · have harg : configArg arg = cliArg arg := by rw [configArg_eq, if_pos hconfig]
    have hother : configArg arg ≠ .other := fun e => by rw [← harg, e] at hconfig; cases hconfig
    rw [List.filter_cons_of_pos (by exact hconfig), reads_alone hother (harg ▸ h), harg]
    rfl
  · rw [List.filter_cons_of_neg (by exact hconfig), reads_other (by rw [configArg_eq, if_neg hconfig])]
    rfl

end

theorem noHiddenConfig_other {arg : List Char} {rest : List (Option (List Char))}
    (h : cliArg arg = .other) : NoHiddenConfig (some arg :: rest) ↔ NoHiddenConfig rest :=
  noHiddenConfig_alone fun htakes => absurd h (ne_other_of_takesNext htakes)

/-- Where no value asks for a file, the constructor reads the options of
`parseCli_` that do, at the same places and with the same values. -/
theorem configReads_eq_filter (i : Nat) {args : List (Option (List Char))}
    (h : NoHiddenConfig args) :
    reads configArg i args = (reads cliArg i args).filter (·.option.isConfig) := by
  fun_induction reads cliArg i args with
  | case1 => rfl
  | case2 i rest ih => exact ih h
  | case3 i arg rest hother ih =>
    rw [reads_other (by rw [configArg_eq, hother]; rfl)]
    exact ih ((noHiddenConfig_other hother).1 h)
  | case4 i arg hother htakes next rest ih =>
    obtain ⟨hnext, hrest⟩ := (noHiddenConfig_take htakes).1 h
    rw [configReads_take i next htakes]
    split
    · rename_i hconfig
      rw [List.filter_cons_of_pos (by exact hconfig), ← ih hrest]
    · rename_i hconfig
      have hnext : configArg next = .other := hnext.resolve_left fun e => hconfig (by rw [e]; rfl)
      rw [List.filter_cons_of_neg (by exact hconfig), ← ih hrest, reads_other hnext]
  | case5 i arg hother htakes rest hrest ih =>
    have halone : (cliArg arg).takesNext = true → ∀ next rest', rest ≠ some next :: rest' :=
      fun _ => hrest
    rw [configReads_alone i halone, ih ((noHiddenConfig_alone halone).1 h), ← List.filter_append]
    rfl
  | case6 i arg rest hother htakes ih =>
    have halone : (cliArg arg).takesNext = true → ∀ next rest', rest ≠ some next :: rest' :=
      fun h => absurd h htakes
    rw [configReads_alone i halone, ih ((noHiddenConfig_alone halone).1 h), ← List.filter_append]
    rfl

theorem configFile_assign (cfg : Config) (setting : Setting) (value : List Char) :
    (cfg.assign setting value).configFile = cfg.configFile := by
  cases setting with
  | windowWidth | windowHeight =>
    unfold Config.assign
    cases parseInt value <;> rfl
  | fullscreen =>
    unfold Config.assign
    cases parseBool value <;> rfl
  | _ => rfl

theorem configFile_obey (cfg : Config) (r : Read) :
    (cfg.obey r).configFile =
      if r.option.isConfig then obeyPath cfg.configFile r else cfg.configFile := by
  obtain ⟨i, option, value⟩ := r
  cases option with
  | take setting =>
    cases value with
    | none => rfl
    | some next => exact configFile_assign cfg setting next
  | set setting next => exact configFile_assign cfg setting next
  | takeConfig => cases value <;> rfl
  | _ => rfl

/-- Then the constructor looks for the file that `parseCli_` names. -/
theorem cliConfigPath_eq_configFile (cfg : Config) {args : List (Option (List Char))}
    (h : NoHiddenConfig args) :
    cliConfigPath cfg.configFile args = (parseCli cfg args).configFile := by
  rw [cliConfigPath_eq_foldl 1, parseCli_eq_foldl 1, configReads_eq_filter 1 h, List.foldl_filter]
  induction reads cliArg 1 args generalizing cfg with
  | nil => rfl
  | cons r rs ih =>
    rw [List.foldl_cons, List.foldl_cons, ← configFile_obey]
    exact ih (cfg.obey r)

/-- All that the two loops read, from index `i` on. -/
def allReads (i : Nat) (args : List (Option (List Char))) : List Read :=
  reads configArg i args ++ reads cliArg i args

theorem readOnce_of_noHiddenConfig (i : Nat) {args : List (Option (List Char))}
    (h : NoHiddenConfig args) : ReadOnce (allReads i args) := by
  refine (readOnce_of_spaced (spaced_reads cliArg i args)).mono fun r hr => ?_
  rw [allReads, configReads_eq_filter i h] at hr
  exact (List.mem_append.1 hr).elim List.mem_of_mem_filter id

/-- An option that the constructor knows is read where it stands. -/
theorem exists_mem_reads {arg : List Char} (h : configArg arg ≠ .other) (i : Nat)
    (rest : List (Option (List Char))) :
    ∃ r ∈ reads configArg i (some arg :: rest), r.index = i := by
  unfold reads
  rw [if_neg h]
  split
  · split
    · exact ⟨_, List.mem_cons_self, rfl⟩
    · exact ⟨_, List.mem_cons_self, rfl⟩
  · exact ⟨_, List.mem_cons_self, rfl⟩

theorem allReads_subset_alone {i : Nat} {arg : List Char} {rest : List (Option (List Char))}
    (hother : cliArg arg ≠ .other)
    (h : (cliArg arg).takesNext = true → ∀ next rest', rest ≠ some next :: rest') :
    allReads (i + 1) rest ⊆ allReads i (some arg :: rest) := by
  rw [allReads, allReads, configReads_alone i h, reads_alone hother h]
  exact ((List.sublist_append_right _ _).append (List.sublist_cons_self _ _)).subset

theorem noHiddenConfig_of_readOnce (i : Nat) {args : List (Option (List Char))}
    (h : ReadOnce (allReads i args)) : NoHiddenConfig args := by
  fun_induction reads cliArg i args with
  | case1 => trivial
  | case2 i rest ih => exact ih h
  | case3 i arg rest hother ih =>
    refine (noHiddenConfig_other hother).2 (ih (h.mono ?_))
    rw [allReads, allReads, reads_other hother, reads_other (by rw [configArg_eq, hother]; rfl)]
    exact List.Subset.refl _
  | case4 i arg hother htakes next rest ih =>
    have hcli : reads cliArg i (some arg :: some next :: rest) =
        ⟨i, cliArg arg, some next⟩ :: reads cliArg (i + 2) rest := reads_take next htakes
    refine (noHiddenConfig_take htakes).2 ?_
    by_cases hconfig : (cliArg arg).isConfig = true
    · have htakeConfig : cliArg arg = .takeConfig := eq_takeConfig htakes hconfig
      refine ⟨.inl htakeConfig, ih (h.mono ?_)⟩
      rw [allReads, allReads, configReads_take i next htakes, if_pos hconfig, hcli]
      exact ((List.sublist_cons_self _ _).append (List.sublist_cons_self _ _)).subset
    · rw [allReads, configReads_take i next htakes, if_neg hconfig, hcli] at h
      -- the constructor reads the value where it asks for a file
      have hnext : configArg next = .other := by
        by_contra hne
        obtain ⟨r, hr, hindex⟩ := exists_mem_reads hne (i + 1) rest
        exact h _ (List.mem_append_right _ List.mem_cons_self) r (List.mem_append_left _ hr)
          (congrArg some hindex.symm)
      refine ⟨.inr hnext, ih (h.mono ?_)⟩
      rw [allReads, reads_other hnext]
      exact ((List.Sublist.refl _).append (List.sublist_cons_self _ _)).subset
  | case5 i arg hother htakes rest hrest ih =>
    exact (noHiddenConfig_alone fun _ => hrest).2
      (ih (h.mono (allReads_subset_alone hother fun _ => hrest)))
  | case6 i arg rest hother htakes ih =>
    exact (noHiddenConfig_alone fun h => absurd h htakes).2
      (ih (h.mono (allReads_subset_alone hother fun h => absurd h htakes)))

theorem readOnce_iff (i : Nat) (args : List (Option (List Char))) :
    ReadOnce (allReads i args) ↔ NoHiddenConfig args :=
  ⟨noHiddenConfig_of_readOnce i, readOnce_of_noHiddenConfig i⟩

/-! ## The law of the configuration -/

namespace Startup

/-- Each setting has the value of the source that goes first, and no argument
is both a value and an option. -/
structure Lawful (p : Startup) : Prop where
  get_eq : ∀ s, p.configProvider.get s = p.precedent s
  readOnce : ReadOnce (allReads 1 p.args)

/-- The law holds where the last level given is known, or gives way to `info`,
and no value of an option but `--config` asks for a file. -/
theorem lawful_iff (p : Startup) : p.Lawful ↔ p.LevelKept ∧ NoHiddenConfig p.args := by
  constructor
  · rintro ⟨hget, hread⟩
    exact ⟨p.logLevel_eq_precedent_iff.1 (hget .logLevel), (readOnce_iff 1 p.args).1 hread⟩
  · rintro ⟨hlevel, hhidden⟩
    refine ⟨fun s => ?_, (readOnce_iff 1 p.args).2 hhidden⟩
    by_cases h : s = .logLevel
    · subst h
      exact p.logLevel_eq_precedent_iff.2 hlevel
    · exact p.get_eq_precedent h

/-- `--log-level verbose`, with a level in the environment. -/
def unknownLevel : Startup where
  argv := [some "main".toList, some "--log-level".toList, some "verbose".toList]
  getenv name := if name = "TTP_LOG_LEVEL".toList then some "debug".toList else none
  files _ := none

/-- `-s --config a.cfg`. -/
def hiddenConfig : Startup where
  argv := [some "main".toList, some "-s".toList, some "--config".toList, some "a.cfg".toList]
  getenv _ := none
  files path := if path = "a.cfg".toList then some "interval=5m".toList else none

/-- An unknown level puts `info` over the one of the environment, and a symbol
`--config` has the constructor read a file. -/
theorem not_lawful : ¬unknownLevel.Lawful ∧ ¬hiddenConfig.Lawful := by
  refine ⟨fun h => ?_, fun h => ?_⟩
  · have hlevel := h.get_eq .logLevel
    revert hlevel
    decide
  · have hread := h.readOnce
    revert hread
    unfold ReadOnce
    decide

end Startup

end TCV.Configuration
