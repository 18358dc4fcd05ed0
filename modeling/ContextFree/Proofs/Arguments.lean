import ContextFree.CommandLine.Arguments
import ContextFree.Proofs.Traverse

/-!
The runs that arguments can ask for: those of a file with a name, with an amount of 32 bits, where
not both the stages are shown and only the normal form is checked. Each of them can be written down
as arguments.
-/

namespace ContextFree

namespace Arguments

/-- What the rules for arguments demand of a run. -/
structure Valid (a : Arguments) : Prop where
  file_ne : a.file ≠ ""
  compatible : (a.steps && a.check) = false
  few : a.amount < 0x100000000

theorem lt_of_amountOfText {text : String} {n : Nat} (h : amountOfText text = some n) :
    n < 0x100000000 := by
  unfold amountOfText at h
  split at h
  split at h
  · cases h
  · dsimp only at h
    split at h
    next hn =>
      obtain rfl := Option.some.inj h
      simp only [Bool.and_eq_true, decide_eq_true_eq] at hn
      exact hn.1
    next => cases h

namespace Settings

variable {p q : Settings} {arguments rest : List String} {a : Arguments}

/-- Settings that may become a valid run. -/
structure Valid (p : Settings) : Prop where
  file_ne : p.file ≠ some ""
  few : ∀ n, p.amount = some n → n < 0x100000000

theorem once_eq_ok_iff {told : Bool} : once told p = .ok q ↔ told = false ∧ p = q := by
  cases told <;> simp [once]

/-- What is told besides the file and the amount does not matter. -/
theorem Valid.once {r : Settings} {told : Bool} (hp : p.Valid) (hfile : r.file = p.file)
    (hamount : r.amount = p.amount) (h : Settings.once told r = .ok q) : q.Valid := by
  obtain ⟨_, rfl⟩ := once_eq_ok_iff.mp h
  exact ⟨hfile ▸ hp.file_ne, hamount ▸ hp.few⟩

theorem Valid.setFile (hp : p.Valid) {path : String} (h : p.setFile path = .ok q) : q.Valid := by
  unfold Settings.setFile at h
  split at h
  · cases h
  next hpath =>
    obtain ⟨_, rfl⟩ := once_eq_ok_iff.mp h
    exact ⟨fun hfile => hpath (Option.some.inj hfile), hp.few⟩

theorem Valid.setAmount (hp : p.Valid) {value : String} (h : p.setAmount value = .ok q) :
    q.Valid := by
  unfold Settings.setAmount at h
  split at h
  · cases h
  next hamount =>
    obtain ⟨_, rfl⟩ := once_eq_ok_iff.mp h
    refine ⟨hp.file_ne, fun n hn => ?_⟩
    obtain rfl := Option.some.inj hn
    exact lt_of_amountOfText hamount

theorem valid_of_bind {x : Except Stop Settings} (h : (x >>= fun r => r.read rest) = .ok q)
    (hread : ∀ r : Settings, r.Valid → r.read rest = .ok q → q.Valid)
    (hx : ∀ r, x = .ok r → r.Valid) : q.Valid := by
  obtain ⟨r, hr, h⟩ := bind_eq_ok_iff.mp h
  exact hread r (hx r hr) h

theorem valid_of_foldlM {files : List String} (hp : p.Valid)
    (h : files.foldlM setFile p = .ok q) : q.Valid := by
  induction files generalizing p with
  | nil =>
    cases h
    exact hp
  | cons path files ih =>
    obtain ⟨r, hr, h⟩ := bind_eq_ok_iff.mp h
    exact ih (hp.setFile hr) h

/-- Arguments that follow the rules tell nothing that is not valid. -/
theorem Valid.of_read (hp : p.Valid) (h : p.read arguments = .ok q) : q.Valid := by
  fun_induction read p arguments with
  | case1 =>
    cases h
    exact hp
  | case2 => exact valid_of_foldlM hp h
  | case3 _ _ _ _ _ ih => exact valid_of_bind h ih fun _ => hp.setFile
  | case4 _ _ _ _ ih => exact valid_of_bind h ih fun _ => hp.once rfl rfl
  | case5 _ _ _ _ ih => exact valid_of_bind h ih fun _ => hp.once rfl rfl
  | case6 _ _ _ _ _ ih => exact valid_of_bind h ih fun _ => hp.once rfl rfl
  | case7 _ _ _ _ _ ih => exact valid_of_bind h ih fun _ => hp.setAmount
  | case8 _ _ _ _ _ _ ih => exact valid_of_bind h ih fun _ => hp.once rfl rfl
  | case10 _ _ _ _ _ _ ih => exact valid_of_bind h ih fun _ => hp.setAmount
  | case9 | case11 | case12 | case13 | case14 | case15 | case16 => cases h

theorem Valid.finish (hp : p.Valid) (h : p.finish = .ok a) : a.Valid := by
  unfold Settings.finish at h
  split at h
  · cases h
  next file hfile =>
    split at h
    · cases h
    next hcompatible =>
      obtain rfl := Except.ok.inj h
      refine ⟨?_, by simpa using hcompatible, ?_⟩
      · rintro rfl
        exact hp.file_ne hfile
      · show p.amount.getD 0 < 0x100000000
        cases hamount : p.amount with
        | none => decide
        | some n => exact hp.few n hamount

end Settings

theorem parse_eq_some_iff {arguments : List String} {a : Arguments} :
    parse arguments = some a ↔
      ∃ p, Settings.read {} arguments = .ok p ∧ p.finish = .ok a := by
  rw [← bind_eq_ok_iff]
  show (interpret arguments).toOption = some a ↔ interpret arguments = .ok a
  cases interpret arguments <;> simp [Except.toOption]

theorem valid_of_parse {arguments : List String} {a : Arguments} (h : parse arguments = some a) :
    a.Valid := by
  obtain ⟨p, hread, hfinish⟩ := parse_eq_some_iff.mp h
  have hnew : Settings.Valid {} := ⟨nofun, nofun⟩
  exact (hnew.of_read hread).finish hfinish

/-- Arguments that ask for a run. Behind an equals sign the start symbol may have any name, and
behind the separator the file. -/
def written (a : Arguments) : List String :=
  a.start.toList.map ("--start=" ++ ·) ++ ((if a.steps then ["--steps"] else []) ++
    ((if a.check then ["--check"] else []) ++ ["--amount=" ++ a.amount.repr, "--", a.file]))

theorem word_start (value : String) : word ("--start=" ++ value) = .start (some value) := by
  rw [word, String.toList_append]
  simp [longOption, behindEquals]

theorem word_amount (value : String) : word ("--amount=" ++ value) = .amount (some value) := by
  rw [word, String.toList_append]
  simp [longOption, behindEquals]

theorem amountOfText_repr {n : Nat} (h : n < 0x100000000) : amountOfText n.repr = some n := by
  have hdigit : ∀ c ∈ Nat.toDigits 10 n, c.isDigit = true := fun c =>
    Nat.isDigit_of_mem_toDigits (by decide) (by decide)
  unfold amountOfText
  rw [Nat.toList_repr]
  split
  next negative digits hsign =>
    -- a number begins with a digit, so it is not taken for one with a sign
    obtain ⟨rfl, rfl⟩ : negative = false ∧ digits = Nat.toDigits 10 n := by
      split at hsign
      next hminus => exact absurd (hdigit '-' (hminus ▸ List.mem_cons_self)) (by decide)
      next hplus => exact absurd (hdigit '+' (hplus ▸ List.mem_cons_self)) (by decide)
      next => exact ⟨(congrArg Prod.fst hsign).symm, (congrArg Prod.snd hsign).symm⟩
    have hall : (Nat.toDigits 10 n).all Char.isDigit = true := List.all_eq_true.mpr hdigit
    have hnumber : Nat.ofDigitChars 10 (Nat.toDigits 10 n) 0 = n :=
      Nat.ofDigitChars_toDigits (by decide) (by decide)
    simp [Nat.toDigits_ne_nil, hall, hnumber, h]

namespace Settings

variable {p : Settings} {rest : List String}

theorem read_start (h : p.start = none) (start : Option Name) :
    p.read (start.toList.map ("--start=" ++ ·) ++ rest) =
      ({ p with start := start } : Settings).read rest := by
  cases start with
  | none => exact congrArg (fun q : Settings => q.read rest) (by rw [← h])
  | some value => simp [read, word_start, setStart, once, h, bind, Except.bind]

theorem read_steps (h : p.steps = false) (steps : Bool) :
    p.read ((if steps then ["--steps"] else []) ++ rest) =
      ({ p with steps := steps } : Settings).read rest := by
  cases steps with
  | false => exact congrArg (fun q : Settings => q.read rest) (by rw [← h])
  | true =>
    have hword : word "--steps" = .steps := by decide
    simp [read, hword, setSteps, once, h, bind, Except.bind]

theorem read_check (h : p.check = false) (check : Bool) :
    p.read ((if check then ["--check"] else []) ++ rest) =
      ({ p with check := check } : Settings).read rest := by
  cases check with
  | false => exact congrArg (fun q : Settings => q.read rest) (by rw [← h])
  | true =>
    have hword : word "--check" = .check := by decide
    simp [read, hword, setCheck, once, h, bind, Except.bind]

theorem read_amount (h : p.amount = none) {n : Nat} (hn : n < 0x100000000) :
    p.read (("--amount=" ++ n.repr) :: rest) =
      ({ p with amount := some n } : Settings).read rest := by
  simp [read, word_amount, setAmount, amountOfText_repr hn, once, h, bind, Except.bind]

theorem read_file (h : p.file = none) {path : String} (hpath : path ≠ "") :
    p.read ["--", path] = .ok { p with file := some path } := by
  have hword : word "--" = .separator := by decide
  simp [read, hword, setFile, once, h, hpath, bind, Except.bind, pure, Except.pure]

end Settings

theorem parse_written {a : Arguments} (h : a.Valid) : parse a.written = some a := by
  refine parse_eq_some_iff.mpr ⟨⟨some a.file, a.start, a.steps, a.check, some a.amount⟩, ?_, ?_⟩
  · rw [written, Settings.read_start rfl, Settings.read_steps rfl, Settings.read_check rfl,
      Settings.read_amount rfl h.few, Settings.read_file rfl h.file_ne]
  · simp [Settings.finish, h.compatible]

/-- Arguments ask for exactly the valid runs. -/
theorem exists_parse_iff {a : Arguments} :
    (∃ arguments, parse arguments = some a) ↔ a.Valid :=
  ⟨fun ⟨_, h⟩ => valid_of_parse h, fun h => ⟨a.written, parse_written h⟩⟩

end Arguments

end ContextFree
