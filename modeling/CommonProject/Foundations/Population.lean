import Mathlib.Algebra.BigOperators.Group.List.Basic
import Mathlib.Algebra.Order.BigOperators.Group.List
import Mathlib.Algebra.Ring.Int.Defs

/-! Weighing the members of a population, and runs of a labelled machine. -/
namespace CommonProject.Foundations

section Total
variable {β : Type}

def total (f : β → Int) (l : List β) : Int := (l.map f).sum

@[simp] theorem total_nil (f : β → Int) : total f [] = 0 := rfl

@[simp] theorem total_cons (f : β → Int) (a : β) (l : List β) :
    total f (a :: l) = f a + total f l := by simp [total]

@[simp] theorem total_append (f : β → Int) (l r : List β) :
    total f (l ++ r) = total f l + total f r := by simp [total]

/-- When one member changes, the sum changes by the difference of its weights. -/
theorem total_set (f : β → Int) {l : List β} {k : Nat} {a : β} (b : β) (h : l[k]? = some a) :
    total f (l.set k b) = total f l + (f b - f a) := by
  induction l generalizing k with
  | nil => simp at h
  | cons c l ih =>
    cases k with
    | zero =>
      obtain rfl : c = a := by simpa using h
      simp only [List.set_cons_zero, total_cons]
      omega
    | succ k =>
      simp only [List.set_cons_succ, total_cons, ih (by simpa using h)]
      omega

theorem total_le_total {f g : β → Int} {l : List β} (h : ∀ a ∈ l, f a ≤ g a) :
    total f l ≤ total g l := List.sum_le_sum h

theorem total_congr {f g : β → Int} {l : List β} (h : ∀ a ∈ l, f a = g a) :
    total f l = total g l := by
  rw [total, List.map_congr_left h, total]

theorem total_nonneg {f : β → Int} (h : ∀ a, 0 ≤ f a) (l : List β) : 0 ≤ total f l :=
  List.sum_nonneg fun _ hx => by obtain ⟨a, -, rfl⟩ := List.mem_map.mp hx; exact h a

theorem total_add (f g : β → Int) (l : List β) :
    total (fun a => f a + g a) l = total f l + total g l := by
  induction l with
  | nil => rfl
  | cons a l ih =>
    simp only [total_cons, ih]
    omega

theorem total_mul (c : Int) (f : β → Int) (l : List β) :
    total (fun a => c * f a) l = c * total f l := by
  induction l with
  | nil => simp
  | cons a l ih => rw [total_cons, total_cons, ih, Int.mul_add]

/-- A member weighs no more than the population. -/
theorem le_total {f : β → Int} (h : ∀ a, 0 ≤ f a) {l : List β} {a : β} (ha : a ∈ l) :
    f a ≤ total f l := by
  obtain ⟨s, t, rfl⟩ := List.append_of_mem ha
  have hs := total_nonneg h s
  have ht := total_nonneg h t
  simp only [total_append, total_cons]
  omega

/-- Two different members together weigh no more than the population. -/
theorem add_le_total {f : β → Int} (h : ∀ a, 0 ≤ f a) {l : List β} {j k : Nat} {a b : β}
    (hj : l[j]? = some a) (hk : l[k]? = some b) (hne : j ≠ k) : f a + f b ≤ total f l := by
  have hm : a ∈ l.eraseIdx k := List.mem_eraseIdx_iff_getElem?.mpr ⟨j, hne, hj⟩
  have he : total f (l.eraseIdx k) = total f l - f b := by
    clear hj hne hm
    induction l generalizing k with
    | nil => simp at hk
    | cons c l ih =>
      cases k with
      | zero =>
        obtain rfl : c = b := by simpa using hk
        simp
      | succ k =>
        simp only [List.eraseIdx_cons_succ, total_cons, ih (by simpa using hk)]
        omega
  have hl := le_total h hm
  omega

theorem total_one (l : List β) : total (fun _ => 1) l = l.length := by
  simp [total]

def number (P : β → Bool) (l : List β) : Int := total (fun a => (P a).toInt) l

@[simp] theorem number_nil (P : β → Bool) : number P [] = 0 := rfl

@[simp] theorem number_append (P : β → Bool) (l r : List β) :
    number P (l ++ r) = number P l + number P r := total_append _ l r

@[simp] theorem number_singleton (P : β → Bool) (a : β) : number P [a] = (P a).toInt := by
  simp [number]

theorem number_set (P : β → Bool) {l : List β} {k : Nat} {a : β} (b : β) (h : l[k]? = some a) :
    number P (l.set k b) = number P l + ((P b).toInt - (P a).toInt) := total_set _ b h

theorem toInt_nonneg (b : Bool) : 0 ≤ b.toInt := by cases b <;> decide

theorem number_nonneg (P : β → Bool) (l : List β) : 0 ≤ number P l :=
  total_nonneg (fun a => toInt_nonneg (P a)) l

theorem number_eq_countP (P : β → Bool) (l : List β) : number P l = l.countP P := by
  induction l with
  | nil => rfl
  | cons a l ih =>
    have hc : number P (a :: l) = (P a).toInt + number P l := total_cons _ a l
    rw [hc, ih, List.countP_cons]
    cases P a <;> simp [Int.add_comm]

theorem number_congr {P Q : β → Bool} {l : List β} (h : ∀ a ∈ l, P a = Q a) :
    number P l = number Q l :=
  total_congr fun a ha => by rw [h a ha]

theorem number_le_number {P Q : β → Bool} {l : List β} (h : ∀ a ∈ l, P a → Q a) :
    number P l ≤ number Q l := by
  rw [number_eq_countP, number_eq_countP]
  exact_mod_cast List.countP_mono_left h

theorem number_le_length (P : β → Bool) (l : List β) : number P l ≤ l.length := by
  rw [number_eq_countP]
  exact_mod_cast List.countP_le_length

theorem toInt_le_one (b : Bool) : b.toInt ≤ 1 := by cases b <;> decide

theorem toInt_pos {b : Bool} : 0 < b.toInt ↔ b = true := by cases b <;> decide

theorem toInt_eq_zero {b : Bool} : b.toInt = 0 ↔ b = false := by cases b <;> decide

theorem toInt_inj {b c : Bool} (h : b.toInt = c.toInt) : b = c := by
  cases b <;> cases c <;> simp_all

theorem number_pos {P : β → Bool} {l : List β} : 0 < number P l ↔ ∃ a ∈ l, P a := by
  rw [number_eq_countP]
  simp [List.countP_pos_iff]

theorem number_eq_zero {P : β → Bool} {l : List β} : number P l = 0 ↔ ∀ a ∈ l, P a = false := by
  rw [number_eq_countP]
  simp [List.countP_eq_zero]

end Total

section Runs
variable {σ ε : Type}

def run (step : σ → ε → Option σ) : σ → List ε → Option σ
  | s, [] => some s
  | s, e :: es => (step s e).bind fun t => run step t es

def Reachable (step : σ → ε → Option σ) (s t : σ) : Prop := ∃ es, run step s es = some t

variable {step : σ → ε → Option σ}

private theorem run_append (s : σ) (es fs : List ε) :
    run step s (es ++ fs) = (run step s es).bind fun t => run step t fs := by
  induction es generalizing s with
  | nil => rfl
  | cons e es ih =>
    simp only [List.cons_append, run, Option.bind_assoc]
    congr 1
    funext t
    exact ih t

/-- A run that succeeds can be stopped at any point. -/
theorem run_take {s t : σ} {es : List ε} (h : run step s es = some t) (k : Nat) :
    ∃ u, run step s (es.take k) = some u := by
  rw [← List.take_append_drop k es, run_append] at h
  obtain ⟨u, hu, -⟩ := Option.bind_eq_some_iff.mp h
  exact ⟨u, hu⟩

theorem run_take_succ {s : σ} {es : List ε} {k : Nat} {e : ε} (he : es[k]? = some e) :
    run step s (es.take (k + 1)) = (run step s (es.take k)).bind fun t => step t e := by
  rw [List.take_add_one, he, Option.toList_some, run_append]
  congr 1
  funext t
  simp [run]

/-- A map that keeps the steps keeps the runs. -/
theorem run_map {τ : Type} {step' : τ → ε → Option τ} {f : σ → τ}
    (hstep : ∀ ⦃a e b⦄, step a e = some b → step' (f a) e = some (f b)) {s t : σ} {es : List ε}
    (h : run step s es = some t) : run step' (f s) es = some (f t) := by
  induction es generalizing s with
  | nil => exact congrArg (some ∘ f) (Option.some.inj h)
  | cons e es ih =>
    obtain ⟨a, ha, hrest⟩ := Option.bind_eq_some_iff.mp h
    rw [run, hstep ha]
    exact ih hrest

/-- What the steps of one run keep holds all along that run. -/
theorem run_invariant {P : σ → Prop} {s : σ} {es : List ε} (hs : P s)
    (hstep : ∀ {k a e b}, run step s (es.take k) = some a → es[k]? = some e → step a e = some b →
      P a → P b) {k : Nat} {t : σ} (ht : run step s (es.take k) = some t) : P t := by
  induction k generalizing t with
  | zero => exact Option.some.inj ht ▸ hs
  | succ k ih =>
    cases he : es[k]? with
    | none =>
      rw [List.take_add_one, he, Option.toList_none, List.append_nil] at ht
      exact ih ht
    | some e =>
      rw [run_take_succ he] at ht
      obtain ⟨a, ha, hstep'⟩ := Option.bind_eq_some_iff.mp ht
      exact hstep ha he hstep' (ih ha)

theorem Reachable.refl (s : σ) : Reachable step s s := ⟨[], rfl⟩

theorem Reachable.tail {s t u : σ} {e : ε} (h : Reachable step s t) (he : step t e = some u) :
    Reachable step s u := by
  obtain ⟨es, hes⟩ := h
  exact ⟨es ++ [e], by simp [run_append, hes, run, he]⟩

theorem Reachable.head {s t u : σ} {e : ε} (he : step s e = some t) (h : Reachable step t u) :
    Reachable step s u := by
  obtain ⟨es, hes⟩ := h
  exact ⟨e :: es, by simp [run, he, hes]⟩

theorem Reachable.trans {s t u : σ} (h : Reachable step s t) (h' : Reachable step t u) :
    Reachable step s u := by
  obtain ⟨es, hes⟩ := h
  obtain ⟨fs, hfs⟩ := h'
  exact ⟨es ++ fs, by simp [run_append, hes, hfs]⟩

/-- A run that can be carried out leads to a reachable state. -/
theorem Reachable.get (step : σ → ε → Option σ) (s : σ) (es : List ε)
    (h : (run step s es).isSome) : Reachable step s ((run step s es).get h) :=
  ⟨es, (Option.some_get h).symm⟩

/-- What holds at the start and is kept by every step holds in every reachable state. -/
theorem Reachable.invariant {P : σ → Prop} {s t : σ} (h : Reachable step s t) (hs : P s)
    (hstep : ∀ {a e b}, P a → step a e = some b → P b) : P t := by
  obtain ⟨es, hes⟩ := h
  induction es generalizing s with
  | nil => exact Option.some.inj hes ▸ hs
  | cons e es ih =>
    obtain ⟨a, ha, hr⟩ := Option.bind_eq_some_iff.mp hes
    exact ih (hstep hs ha) hr

theorem rel_bind {α β α' β' : Type} {R : α → β → Prop} {R' : α' → β' → Prop} {a : Option α}
    {b : Option β} {f : α → Option α'} {g : β → Option β'} (h : Option.Rel R a b)
    (hf : ∀ x y, b = some y → R x y → Option.Rel R' (f x) (g y)) :
    Option.Rel R' (a.bind f) (b.bind g) := by
  cases h with
  | some hr => exact hf _ _ rfl hr
  | none => exact .none

/-- Machines whose single steps stay related take related runs. -/
theorem run_related {τ : Type} {step' : τ → ε → Option τ} {I : σ → Prop} {R : τ → σ → Prop}
    (hI : ∀ ⦃s e t⦄, I s → step s e = some t → I t)
    (hR : ∀ ⦃s c e⦄, I s → R c s → Option.Rel R (step' c e) (step s e)) {s : σ} {c : τ}
    (hs : I s) (hc : R c s) (es : List ε) : Option.Rel R (run step' c es) (run step s es) := by
  induction es generalizing s c with
  | nil => exact .some hc
  | cons e es ih =>
    have hone := hR (e := e) hs hc
    simp only [run]
    cases ht : step s e with
    | none =>
      rw [ht] at hone
      cases hone' : step' c e with
      | none => exact .none
      | some d =>
        rw [hone'] at hone
        cases hone
    | some t =>
      rw [ht] at hone
      cases hone' : step' c e with
      | none =>
        rw [hone'] at hone
        cases hone
      | some d =>
        rw [hone'] at hone
        cases hone with
        | some hr => exact ih (hI hs ht) hr

end Runs
end CommonProject.Foundations
