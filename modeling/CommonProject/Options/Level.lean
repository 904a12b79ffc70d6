import CommonProject.Options.Basic

/-! Which levels the command line sets, against which it should set. -/
namespace CommonProject.Options
open Foundations Numerals

inductive LogOption
  | separate (arg : CString)
  | attached (c : Char) (arg : CString)
  | long (arg : CString)
  | longSeparate (arg : CString)
  deriving DecidableEq, Repr

namespace LogOption

def arg : LogOption → CString
  | separate arg | long arg | longSeparate arg => arg
  | attached c arg => c :: arg

def longWord : CString := ['-', '-', 'l', 'o', 'g', '-', 'l', 'e', 'v', 'e', 'l']

def words : LogOption → List CString
  | separate arg => [['-', 'l'], arg]
  | attached c arg => ['-' :: 'l' :: c :: arg]
  | long arg => [longWord ++ '=' :: arg]
  | longSeparate arg => [longWord, arg]

end LogOption

def IsTarget (target : CString) : Prop := target = ['-'] ∨ target.head? ≠ some '-'

def argsOf (options : List LogOption) (target : CString) : List CString :=
  options.flatMap LogOption.words ++ [target]

def IsLevel (arg : CString) : Prop := ∃ v, Numeral arg v ∧ 0 ≤ v ∧ v ≤ 3

structure ParsesExactly (options : List LogOption) (g g' : Globals) (outcome : Outcome) : Prop where
  zero_iff : outcome = .returned 0 ↔ ∀ o ∈ options, IsLevel o.arg
  last : outcome = .returned 0 → ∀ o ∈ options.getLast?, ∀ v, Numeral o.arg v →
    g'.controlMsgLevel.toInt = v
  unchanged : outcome = .returned 0 → options = [] → g'.controlMsgLevel = g.controlMsgLevel

/-- The values that the code takes for a level: its low 32 bits are one, or it is below every
`long`. -/
def TakenForLevel (v : Int) : Prop := v ≤ longMax ∧ (v < longMin ∨ v % 4294967296 ≤ 3)

/-- Every argument is a numeral that the code takes for a level, and one of them is none. -/
def Slips (options : List LogOption) : Prop :=
  (∀ o ∈ options, ∃ v, Numeral o.arg v ∧ TakenForLevel v) ∧ ∃ o ∈ options, ¬ IsLevel o.arg

section Level
variable {arg : CString} {v : Int}

private theorem strtol_numeral (h : Numeral arg v) :
    strtol arg = (max longMin (min v longMax), []) := by
  rw [strtol, scan_all_iff.mpr h]

private theorem strtol_all (h : (strtol arg).2 = []) (hne : (strtol arg).2 ≠ arg) :
    ∃ v, Numeral arg v := by
  rw [strtol] at h hne
  cases hs : scan arg with
  | none =>
    rw [hs] at hne
    exact absurd rfl hne
  | some r =>
    obtain ⟨v, rest⟩ := r
    rw [hs] at h
    obtain rfl : rest = [] := h
    exact ⟨v, scan_all_iff.mp hs⟩

private theorem numeral_ne_nil (h : Numeral arg v) : arg ≠ [] := by
  rintro rfl
  cases h with
  | signed hs =>
    cases hs with
    | bare hl => cases hl

/-- The `int` that a `long` is stored into holds its low 32 bits. -/
private theorem narrowed_iff (v : Int) :
    0 ≤ (BitVec.ofInt 32 v).toInt ∧ (BitVec.ofInt 32 v).toInt ≤ 3 ↔ v % 4294967296 ≤ 3 := by
  rw [BitVec.toInt_ofInt, Int.bmod_def]
  split <;> omega

private theorem narrowed_level (h0 : 0 ≤ v) (h3 : v ≤ 3) : (BitVec.ofInt 32 v).toInt = v := by
  rw [BitVec.toInt_ofInt, Int.bmod_def]
  split <;> omega

private theorem badLevel_numeral (h : Numeral arg v) : badLevel arg = false ↔ TakenForLevel v := by
  have hne : ([] : CString) ≠ arg := (numeral_ne_nil h).symm
  have hlevel : levelOf arg = BitVec.ofInt 32 (max longMin (min v longMax)) := by
    rw [levelOf, strtol_numeral h]
  have hrange := narrowed_iff (max longMin (min v longMax))
  have hbad : badLevel arg = false ↔ 0 ≤ (levelOf arg).toInt ∧ (levelOf arg).toInt ≤ 3 := by
    simp [badLevel, strtol_numeral h, hne]
  rw [hbad, hlevel, hrange, TakenForLevel]
  simp only [longMin, longMax]
  omega

private theorem badLevel_iff : badLevel arg = false ↔ ∃ v, Numeral arg v ∧ TakenForLevel v := by
  constructor
  · intro h
    have hend : (strtol arg).2 = [] ∧ (strtol arg).2 ≠ arg := by
      simp only [badLevel, Bool.or_eq_false_iff, decide_eq_false_iff_not, not_not] at h
      exact ⟨h.1.1.1, h.1.1.2⟩
    obtain ⟨v, hv⟩ := strtol_all hend.1 hend.2
    exact ⟨v, hv, (badLevel_numeral hv).mp h⟩
  · rintro ⟨v, hv, ht⟩
    exact (badLevel_numeral hv).mpr ht

/-- A value from 0 to 3 is taken for itself. -/
private theorem IsLevel.taken (h : IsLevel arg) : ∃ v, Numeral arg v ∧ TakenForLevel v := by
  obtain ⟨v, hv, h0, h3⟩ := h
  refine ⟨v, hv, ?_⟩
  simp only [TakenForLevel, longMin, longMax]
  omega

private theorem IsLevel.levelOf (h : IsLevel arg) (hv : Numeral arg v) :
    (levelOf arg).toInt = v := by
  obtain ⟨w, hw, h0, h3⟩ := h
  obtain rfl := hv.unique hw
  have hclamp : max longMin (min v longMax) = v := by
    simp only [longMin, longMax]
    omega
  rw [Options.levelOf, strtol_numeral hv, hclamp]
  exact narrowed_level h0 h3

end Level

section Loop
variable {strdup : CString → Option CString} {programName target : CString}
  {options : List LogOption} {g : Globals} {fuel : Nat}

private theorem getoptLong_option (o : LogOption) (rest : List CString) :
    getoptLong optstring longopts ⟨o.words ++ rest, [], []⟩ = (.opt 'l' (some o.arg), ⟨rest, [], []⟩) := by
  cases o <;> rfl

private theorem getoptLong_target (ht : IsTarget target) :
    getoptLong optstring longopts ⟨[target], [], []⟩ = (.done, ⟨[], [target], []⟩) := by
  rcases ht with rfl | ht
  · rfl
  · match target with
    | [] => rfl
    | c :: cs =>
      have hc : c ≠ '-' := fun h => ht (h ▸ rfl)
      simp [getoptLong, getNext, hc]

private theorem argsOf_cons (o : LogOption) (options : List LogOption) (target : CString) :
    argsOf (o :: options) target = o.words ++ argsOf options target := by
  rw [argsOf, argsOf, List.flatMap_cons, List.append_assoc]

private theorem optionLoop_option (o : LogOption) (rest : List CString) :
    optionLoop strdup programName (fuel + 1) ⟨o.words ++ rest, [], []⟩ g =
      if badLevel o.arg then
        some (.returned (-1), { g with controlMsgLevel := levelOf o.arg }.warn
          ("bad debugging level '" ++ String.ofList o.arg ++ "'"))
      else optionLoop strdup programName fuel ⟨rest, [], []⟩ { g with controlMsgLevel := levelOf o.arg } := by
  rw [optionLoop, getoptLong_option]
  rfl

/-- All arguments are taken: the last one sets the level. -/
private theorem optionLoop_taken (ht : IsTarget target) (hdup : strdup target = some target)
    (hall : ∀ o ∈ options, badLevel o.arg = false) (hf : options.length < fuel) :
    optionLoop strdup programName fuel ⟨argsOf options target, [], []⟩ g =
      some (.returned 0, { g with
        controlMsgLevel := (options.getLast?.map fun o => levelOf o.arg).getD g.controlMsgLevel
        target := some target }) := by
  induction options generalizing fuel g with
  | nil =>
    obtain ⟨fuel, rfl⟩ := Nat.exists_eq_succ_of_ne_zero (by omega : fuel ≠ 0)
    rw [optionLoop, argsOf, List.flatMap_nil, List.nil_append, getoptLong_target ht]
    simp [takeTarget, hdup]
  | cons o options ih =>
    obtain ⟨fuel, rfl⟩ := Nat.exists_eq_succ_of_ne_zero (by omega : fuel ≠ 0)
    rw [argsOf_cons, optionLoop_option, if_neg (by simp [hall o (.head _)]),
      ih (fun o ho => hall o (List.mem_cons_of_mem _ ho)) (by simpa using hf)]
    cases options with
    | nil => rfl
    | cons o' options => simp [List.getLast?_cons]

/-- One argument is not taken: it ends the loop. -/
private theorem optionLoop_bad (hbad : ∃ o ∈ options, badLevel o.arg) (hf : options.length < fuel) :
    ∃ g', optionLoop strdup programName fuel ⟨argsOf options target, [], []⟩ g =
      some (.returned (-1), g') := by
  induction options generalizing fuel g with
  | nil =>
    obtain ⟨o, ho, -⟩ := hbad
    cases ho
  | cons o options ih =>
    obtain ⟨fuel, rfl⟩ := Nat.exists_eq_succ_of_ne_zero (by omega : fuel ≠ 0)
    rw [argsOf_cons, optionLoop_option]
    split
    case isTrue => exact ⟨_, rfl⟩
    case isFalse hgood =>
      refine ih ?_ (by simpa using hf)
      obtain ⟨o', ho', hb⟩ := hbad
      rcases List.mem_cons.mp ho' with rfl | ho'
      · exact absurd hb hgood
      · exact ⟨o', ho', hb⟩

end Loop

/-- The level is parsed exactly unless every argument is taken for a level and one is none. -/
theorem log_level_parsed_exactly_iff (strdup : CString → Option CString) (programName target : CString)
    (options : List LogOption) (g : Globals) (ht : IsTarget target)
    (hdup : strdup target = some target) (fuel : Nat) (hf : options.length < fuel) :
    ∃ outcome g', getOptions strdup programName fuel (argsOf options target) g = some (outcome, g') ∧
      (ParsesExactly options g g' outcome ↔ ¬ Slips options) := by
  by_cases hall : ∀ o ∈ options, badLevel o.arg = false
  · refine ⟨_, _, optionLoop_taken ht hdup hall hf, ?_⟩
    constructor
    · rintro hp ⟨-, o, ho, hno⟩
      exact hno (hp.zero_iff.mp rfl o ho)
    · intro hslip
      have hlevel : ∀ o ∈ options, IsLevel o.arg := fun o ho => by
        by_contra hno
        exact hslip ⟨fun o ho => badLevel_iff.mp (hall o ho), o, ho, hno⟩
      refine ⟨⟨fun _ => hlevel, fun _ => rfl⟩, fun _ o ho v hv => ?_, fun _ he => ?_⟩
      · rw [Option.mem_def] at ho
        simp only [ho, Option.map_some, Option.getD_some]
        exact (hlevel o (List.mem_of_getLast? ho)).levelOf hv
      · subst he
        rfl
  · have hbad : ∃ o ∈ options, badLevel o.arg := by simpa using hall
    have hend : ∃ g', getOptions strdup programName fuel (argsOf options target) g =
        some (.returned (-1), g') := optionLoop_bad hbad hf
    obtain ⟨g', hrun⟩ := hend
    refine ⟨_, g', hrun, ?_⟩
    have hno : ¬ ∀ o ∈ options, ∃ v, Numeral o.arg v ∧ TakenForLevel v := fun h =>
      hall fun o ho => badLevel_iff.mpr (h o ho)
    have hparses : ParsesExactly options g g' (.returned (-1)) := by
      refine ⟨⟨nofun, fun h => absurd (fun o ho => (h o ho).taken) hno⟩, nofun, nofun⟩
    exact ⟨fun _ h => hno h.1, fun _ => hparses⟩

/-- `-l 2 --log-level=0x1 t`. -/
theorem two_levels_parsed : ∃ outcome g',
    getOptions some ['p'] 3 (argsOf [.separate ['2'], .long ['0', 'x', '1']] ['t'])
      ⟨0#32, none, []⟩ = some (outcome, g') ∧
    (ParsesExactly [.separate ['2'], .long ['0', 'x', '1']] ⟨0#32, none, []⟩ g' outcome ↔
      ¬ Slips [.separate ['2'], .long ['0', 'x', '1']]) :=
  log_level_parsed_exactly_iff some ['p'] ['t'] [.separate ['2'], .long ['0', 'x', '1']]
    ⟨0#32, none, []⟩ (.inr (by decide)) rfl 3 (by decide)

/-- `-l 4294967296 t` sets the level 0. -/
theorem two_to_the_32_taken_for_zero :
    getOptions some ['p'] 2
        (argsOf [.separate ['4', '2', '9', '4', '9', '6', '7', '2', '9', '6']] ['t']) ⟨1#32, none, []⟩ =
      some (.returned 0, ⟨0#32, some ['t'], []⟩) ∧
    ¬ ParsesExactly [.separate ['4', '2', '9', '4', '9', '6', '7', '2', '9', '6']] ⟨1#32, none, []⟩
      ⟨0#32, some ['t'], []⟩ (.returned 0) := by
  refine ⟨rfl, fun hp => ?_⟩
  obtain ⟨v, hv, -, h3⟩ := hp.zero_iff.mp rfl _ (.head _)
  have hscan : Numeral ['4', '2', '9', '4', '9', '6', '7', '2', '9', '6'] 4294967296 :=
    scan_all_iff.mp rfl
  obtain rfl := hv.unique hscan
  exact absurd h3 (by decide)

end CommonProject.Options
