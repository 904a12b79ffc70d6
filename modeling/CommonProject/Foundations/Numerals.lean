import Mathlib.Data.List.Induction
import Mathlib.Data.List.TakeWhile
import Mathlib.Data.Nat.Digits.Defs

/-! Integer numerals as C writes them: blanks, a sign, and a decimal, octal or hexadecimal literal.
A scanner reads the longest one from the front of a string. -/
namespace CommonProject.Foundations.Numerals

def isSpace (c : Char) : Bool := c = ' ' || (9 ≤ c.toNat && c.toNat ≤ 13)

/-- Letters of either case are the digits from ten on. -/
def digit (c : Char) : Option Nat :=
  if '0' ≤ c ∧ c ≤ '9' then some (c.toNat - '0'.toNat)
  else if 'a' ≤ c ∧ c ≤ 'z' then some (c.toNat - 'a'.toNat + 10)
  else if 'A' ≤ c ∧ c ≤ 'Z' then some (c.toNat - 'A'.toNat + 10)
  else none

def isDigit (base : Nat) (c : Char) : Bool := (digit c).any (· < base)

def denotes (base : Nat) (s : List Char) : Nat :=
  Nat.ofDigits base (s.reverse.map fun c => (digit c).getD 0)

inductive Literal : List Char → Nat → Prop
  | decimal {c s} : c ≠ '0' → (∀ d ∈ c :: s, isDigit 10 d) → Literal (c :: s) (denotes 10 (c :: s))
  | octal {s} : (∀ d ∈ s, isDigit 8 d) → Literal ('0' :: s) (denotes 8 s)
  | hexadecimal {x c s} : x = 'x' ∨ x = 'X' → (∀ d ∈ c :: s, isDigit 16 d) →
      Literal ('0' :: x :: c :: s) (denotes 16 (c :: s))

inductive Signed : List Char → Int → Prop
  | bare {s n} : Literal s n → Signed s n
  | plus {s n} : Literal s n → Signed ('+' :: s) n
  | minus {s n} : Literal s n → Signed ('-' :: s) (-n)

inductive Numeral : List Char → Int → Prop
  | signed {s v} : Signed s v → Numeral s v
  | blank {c s v} : isSpace c → Numeral s v → Numeral (c :: s) v

/-- The digits at the front of a string, the number read from left to right, and what follows. -/
def scanDigits (base : Nat) (s : List Char) : Option (Nat × List Char) :=
  let digits := s.takeWhile (isDigit base)
  if digits = [] then none
  else some (digits.foldl (fun n c => base * n + (digit c).getD 0) 0, s.dropWhile (isDigit base))

/-- The base that the front of a string announces, and the string from its digits on. -/
def radix (s : List Char) : Nat × List Char :=
  if s.head? = some '0' then
    match s.tail with
    | x :: c :: t => if (x = 'x' ∨ x = 'X') ∧ isDigit 16 c then (16, c :: t) else (8, s)
    | _ => (8, s)
  else (10, s)

def scanLiteral (s : List Char) : Option (Nat × List Char) :=
  scanDigits (radix s).1 (radix s).2

def scanSigned : List Char → Option (Int × List Char)
  | [] => none
  | c :: s =>
    if c = '-' then (scanLiteral s).map fun r => (-r.1, r.2)
    else if c = '+' then (scanLiteral s).map fun r => (r.1, r.2)
    else (scanLiteral (c :: s)).map fun r => (r.1, r.2)

/-- The longest numeral at the front of a string and what follows it. -/
def scan (s : List Char) : Option (Int × List Char) := scanSigned (s.dropWhile isSpace)

private theorem foldl_eq_denotes (base : Nat) (s : List Char) :
    s.foldl (fun n c => base * n + (digit c).getD 0) 0 = denotes base s := by
  induction s using List.reverseRecOn with
  | nil => rfl
  | append_singleton s c ih =>
    rw [List.foldl_append, ih, denotes, denotes, List.reverse_concat, List.map_cons,
      Nat.ofDigits_cons]
    exact Nat.add_comm _ _

private theorem denotes_zero_cons (base : Nat) (s : List Char) :
    denotes base ('0' :: s) = denotes base s := by
  rw [denotes, denotes, List.reverse_cons, List.map_append, List.map_singleton,
    Nat.ofDigits_append]
  simp [digit]

/-- All of a string is read when all of it is digits. -/
theorem scanDigits_all_iff {base : Nat} {s : List Char} {n : Nat} :
    scanDigits base s = some (n, []) ↔ s ≠ [] ∧ (∀ c ∈ s, isDigit base c) ∧ n = denotes base s := by
  rw [scanDigits]
  constructor
  · intro h
    split at h
    case isTrue => cases h
    case isFalse hne =>
      obtain ⟨rfl, hrest⟩ := Prod.mk.inj (Option.some.inj h)
      have hall : ∀ c ∈ s, isDigit base c := List.dropWhile_eq_nil_iff.mp hrest
      have htake : s.takeWhile (isDigit base) = s := List.takeWhile_eq_self_iff.mpr hall
      rw [htake] at hne ⊢
      exact ⟨hne, hall, foldl_eq_denotes base s⟩
  · rintro ⟨hne, hall, rfl⟩
    rw [List.takeWhile_eq_self_iff.mpr hall, if_neg hne, foldl_eq_denotes,
      List.dropWhile_eq_nil_iff.mpr hall]

private theorem radix_decimal {c : Char} (hc : c ≠ '0') (s : List Char) :
    radix (c :: s) = (10, c :: s) :=
  if_neg fun h => hc (Option.some.inj h)

private theorem radix_hexadecimal {x c : Char} (hx : x = 'x' ∨ x = 'X') (hc : isDigit 16 c)
    (s : List Char) : radix ('0' :: x :: c :: s) = (16, c :: s) := by
  rw [radix, if_pos List.head?_cons]
  exact if_pos ⟨hx, hc⟩

private theorem radix_octal {s : List Char}
    (hs : ∀ x c t, s = x :: c :: t → ¬ ((x = 'x' ∨ x = 'X') ∧ isDigit 16 c)) :
    radix ('0' :: s) = (8, '0' :: s) := by
  rw [radix, if_pos List.head?_cons]
  match s, hs with
  | [], _ => rfl
  | [_], _ => rfl
  | x :: c :: t, hs => exact if_neg (hs x c t rfl)

private theorem scanLiteral_all_iff {s : List Char} {n : Nat} :
    scanLiteral s = some (n, []) ↔ Literal s n := by
  rw [scanLiteral, scanDigits_all_iff]
  constructor
  · rintro ⟨hne, hall, rfl⟩
    match s with
    | [] => exact absurd rfl hne
    | d :: s =>
      by_cases hd : d = '0'
      · subst hd
        by_cases hx : ∃ x c t, s = x :: c :: t ∧ (x = 'x' ∨ x = 'X') ∧ isDigit 16 c
        · obtain ⟨x, c, t, rfl, hx, hc⟩ := hx
          rw [radix_hexadecimal hx hc] at hall ⊢
          exact .hexadecimal hx hall
        · rw [radix_octal fun x c t hs h => hx ⟨x, c, t, hs, h⟩] at hall ⊢
          rw [denotes_zero_cons]
          exact .octal fun d hd => hall d (List.mem_cons_of_mem _ hd)
      · rw [radix_decimal hd] at hall ⊢
        exact .decimal hd hall
  · intro h
    cases h with
    | @decimal d s hd hall =>
      rw [radix_decimal hd]
      exact ⟨by simp, hall, rfl⟩
    | @octal s hall =>
      have hradix : radix ('0' :: s) = (8, '0' :: s) := by
        refine radix_octal fun x c t hs hx => ?_
        have hoct := hall x (hs ▸ .head _)
        rcases hx.1 with rfl | rfl <;> exact absurd hoct (by decide)
      rw [hradix]
      refine ⟨by simp, ?_, (denotes_zero_cons 8 s).symm⟩
      rintro c hc
      rcases List.mem_cons.mp hc with rfl | hc
      · rfl
      · exact hall c hc
    | @hexadecimal x c s hx hall =>
      rw [radix_hexadecimal hx (hall c (.head _))]
      exact ⟨by simp, hall, rfl⟩

theorem Literal.head_digit {c : Char} {s : List Char} {n : Nat} (h : Literal (c :: s) n) :
    isDigit 10 c := by
  cases h with
  | decimal _ hall => exact hall c (.head _)
  | octal => rfl
  | hexadecimal => rfl

private theorem map_scanLiteral_iff {s : List Char} {f : Nat → Int} {v : Int} :
    (scanLiteral s).map (fun r => (f r.1, r.2)) = some (v, []) ↔ ∃ n, Literal s n ∧ f n = v := by
  simp only [← scanLiteral_all_iff, Option.map_eq_some_iff, Prod.mk.injEq, Prod.exists]
  constructor
  · rintro ⟨n, _, hn, hv, rfl⟩
    exact ⟨n, hn, hv⟩
  · rintro ⟨n, hn, hv⟩
    exact ⟨n, [], hn, hv, rfl⟩

private theorem scanSigned_all_iff {s : List Char} {v : Int} :
    scanSigned s = some (v, []) ↔ Signed s v := by
  constructor
  · intro h
    match s with
    | [] => cases h
    | c :: s =>
      rw [scanSigned] at h
      split at h
      case isTrue hc =>
        obtain ⟨n, hn, rfl⟩ := (map_scanLiteral_iff (f := fun n => -n)).mp h
        exact hc ▸ .minus hn
      case isFalse =>
        split at h
        case isTrue hc =>
          obtain ⟨n, hn, rfl⟩ := (map_scanLiteral_iff (f := fun n => n)).mp h
          exact hc ▸ .plus hn
        case isFalse =>
          obtain ⟨n, hn, rfl⟩ := (map_scanLiteral_iff (f := fun n => n)).mp h
          exact .bare hn
  · intro h
    cases h with
    | @bare s n hn =>
      match s with
      | [] => cases hn
      | c :: s =>
        have hsign : c ≠ '-' ∧ c ≠ '+' := by
          constructor <;> rintro rfl <;> exact absurd hn.head_digit (by decide)
        rw [scanSigned, if_neg hsign.1, if_neg hsign.2]
        exact (map_scanLiteral_iff (f := fun n => n)).mpr ⟨n, hn, rfl⟩
    | @plus s n hn => exact (map_scanLiteral_iff (f := fun n => n)).mpr ⟨n, hn, rfl⟩
    | @minus s n hn => exact (map_scanLiteral_iff (f := fun n => -n)).mpr ⟨n, hn, rfl⟩

private theorem not_space_of_digit {c : Char} (hc : isDigit 10 c) : isSpace c = false := by
  have hrange : '0' ≤ c := by
    rw [isDigit, digit] at hc
    split_ifs at hc with h0
    · exact h0.1
    · simp at hc
    · simp at hc
    · cases hc
  have hnat : 48 ≤ c.toNat := hrange
  have hblank : c ≠ ' ' := by
    rintro rfl
    exact absurd hrange (by decide)
  simp only [isSpace, hblank, decide_false, Bool.false_or, Bool.and_eq_false_imp]
  intro _
  simp
  omega

theorem Signed.not_space {s : List Char} {v : Int} (h : Signed s v) : s.dropWhile isSpace = s := by
  have hhead : ∀ c t, s = c :: t → isSpace c = false := by
    rintro c t rfl
    cases h with
    | bare hn => exact not_space_of_digit hn.head_digit
    | plus => rfl
    | minus => rfl
  match s with
  | [] => rfl
  | c :: t => exact List.dropWhile_cons_of_neg (by simp [hhead c t rfl])

/-- The scanner reads all of a string exactly when it is a numeral, with its value. -/
theorem scan_all_iff {s : List Char} {v : Int} : scan s = some (v, []) ↔ Numeral s v := by
  constructor
  · intro h
    induction s with
    | nil => exact .signed (scanSigned_all_iff.mp h)
    | cons c s ih =>
      rw [scan, List.dropWhile_cons] at h
      split at h
      case isTrue hc => exact .blank hc (ih h)
      case isFalse => exact .signed (scanSigned_all_iff.mp h)
  · intro h
    induction h with
    | signed hs => rw [scan, hs.not_space, scanSigned_all_iff.mpr hs]
    | blank hc _ ih => rw [scan, List.dropWhile_cons_of_pos hc]; exact ih

theorem Numeral.unique {s : List Char} {v w : Int} (hv : Numeral s v) (hw : Numeral s w) : v = w := by
  have h := (scan_all_iff.mpr hv).symm.trans (scan_all_iff.mpr hw)
  exact congrArg Prod.fst (Option.some.inj h)

end CommonProject.Foundations.Numerals
