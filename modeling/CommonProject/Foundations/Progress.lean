import Mathlib.Order.WellFounded
import CommonProject.Foundations.Population

/-! Progress of a labelled machine: what a run may cost, and where fair runs lead. -/
namespace CommonProject.Foundations
variable {σ ε θ : Type} {step : σ → ε → Option σ}

/-- Where a run leads when it can be carried out. -/
def outcome (step : σ → ε → Option σ) (s : σ) (es : List ε) : σ := (run step s es).getD s

theorem run_outcome {s : σ} {es : List ε} (h : (run step s es).isSome) :
    run step s es = some (outcome step s es) := by
  obtain ⟨t, ht⟩ := Option.isSome_iff_exists.mp h
  rw [outcome, ht, Option.getD_some]

section Cost
variable {I : σ → Prop} {potential : σ → Int} {cost grant : ε → Int}

/-- A potential that pays for the steps bounds what a run costs by what it is granted. -/
theorem run_amortised (hI : ∀ ⦃s e t⦄, I s → step s e = some t → I t)
    (hstep : ∀ ⦃s e t⦄, I s → step s e = some t → potential t + cost e ≤ potential s + grant e)
    {s t : σ} {es : List ε} (hs : I s) (h : run step s es = some t) :
    potential t + total cost es ≤ potential s + total grant es := by
  induction es generalizing s with
  | nil =>
    obtain rfl := Option.some.inj h
    simp
  | cons e es ih =>
    obtain ⟨u, hu, hr⟩ := Option.bind_eq_some_iff.mp h
    have hone := hstep hs hu
    have hrest := ih (hI hs hu) hr
    simp only [total_cons]
    omega

end Cost

section Fair

/-- An endless run; at some moments nothing happens. -/
structure Execution (step : σ → ε → Option σ) where
  state : Nat → σ
  event : Nat → Option ε
  next : ∀ i, (event i).elim (some (state i)) (step (state i)) = some (state (i + 1))

/-- The thread can take a step; `thread` says whose step an event is. -/
def Enabled (step : σ → ε → Option σ) (thread : ε → Option θ) (τ : θ) (s : σ) : Prop :=
  ∃ e, thread e = some τ ∧ (step s e).isSome

variable {thread : ε → Option θ} {x : Execution step}

/-- Every thread, again and again, takes a step or is found unable to. -/
def WeaklyFair (thread : ε → Option θ) (x : Execution step) : Prop :=
  ∀ τ i, ∃ j, i ≤ j ∧
    (¬ Enabled step thread τ (x.state j) ∨ ∃ e, x.event j = some e ∧ thread e = some τ)

theorem Execution.next_none {i : Nat} (h : x.event i = none) : x.state (i + 1) = x.state i := by
  have hn := x.next i
  rw [h] at hn
  exact (Option.some.inj hn).symm

theorem Execution.next_some {i : Nat} {e : ε} (h : x.event i = some e) :
    step (x.state i) e = some (x.state (i + 1)) := by
  have hn := x.next i
  rwa [h] at hn

theorem Execution.reachable (x : Execution step) (i k : Nat) :
    Reachable step (x.state i) (x.state (i + k)) := by
  induction k with
  | zero => exact .refl _
  | succ k ih =>
    cases he : x.event (i + k) with
    | none =>
      rw [← Nat.add_assoc, x.next_none he]
      exact ih
    | some e => exact ih.tail (x.next_some he)

def Execution.ofRun (s : σ) (es : List ε) (h : (run step s es).isSome) : Execution step where
  state i := outcome step s (es.take i)
  event i := es[i]?
  next i := by
    obtain ⟨t, ht⟩ := Option.isSome_iff_exists.mp h
    obtain ⟨u, hu⟩ := run_take ht i
    obtain ⟨v, hv⟩ := run_take ht (i + 1)
    cases he : es[i]? with
    | none =>
      have hsame : es.take (i + 1) = es.take i := by
        rw [List.take_add_one, he, Option.toList_none, List.append_nil]
      simp only [Option.elim_none, hsame]
    | some e =>
      rw [run_take_succ he, hu, Option.bind_some] at hv
      simp only [Option.elim_some, outcome, hu, Option.getD_some, run_take_succ he,
        Option.bind_some, hv]

/-- Every thread that could take a step again and again does so. -/
def StronglyFair (thread : ε → Option θ) (x : Execution step) : Prop :=
  ∀ τ i, (∀ j, i ≤ j → ∃ k, j ≤ k ∧ Enabled step thread τ (x.state k)) →
    ∃ j, i ≤ j ∧ ∃ e, x.event j = some e ∧ thread e = some τ

theorem WeaklyFair.turn (hf : WeaklyFair thread x) {τ : θ} {i : Nat}
    (hen : ∀ j, i ≤ j → Enabled step thread τ (x.state j)) :
    ∃ j, i ≤ j ∧ ∃ e, x.event j = some e ∧ thread e = some τ := by
  obtain ⟨j, hj, hdis | hstep⟩ := hf τ i
  · exact absurd (hen j hj) hdis
  · exact ⟨j, hj, hstep⟩

theorem StronglyFair.weakly (hf : StronglyFair thread x) : WeaklyFair thread x := by
  intro τ i
  by_cases hdis : ∃ j, i ≤ j ∧ ¬ Enabled step thread τ (x.state j)
  · obtain ⟨j, hj, hno⟩ := hdis
    exact ⟨j, hj, .inl hno⟩
  · obtain ⟨j, hj, hstep⟩ := hf τ i fun j hj =>
      ⟨j, le_rfl, not_not.mp fun hno => hdis ⟨j, hj, hno⟩⟩
    exact ⟨j, hj, .inr hstep⟩

/-- When no thread can go on at the end, every thread has had its turns. -/
theorem Execution.ofRun_fair {s : σ} {es : List ε} (h : (run step s es).isSome)
    (hrest : ∀ τ, ¬ Enabled step thread τ (outcome step s es)) :
    StronglyFair thread (Execution.ofRun s es h) := by
  intro τ i hen
  obtain ⟨k, hk, henabled⟩ := hen (max i es.length) (le_max_left _ _)
  have hall : es.take k = es := List.take_of_length_le (le_of_max_le_right hk)
  simp only [Execution.ofRun, hall] at henabled
  exact absurd henabled (hrest τ)

variable {I Goal : σ → Prop} {allowed : σ → ε → Prop} {α : Type} [Preorder α]
  {rank : θ → σ → α} {helps : θ → σ → Prop}

/-- A step that does not meet the goal finds a helper of lower rank, or leaves the helper and
its rank as they are, without a step of its own. -/
def Helped (step : σ → ε → Option σ) (thread : ε → Option θ) (I Goal : σ → Prop)
    (allowed : σ → ε → Prop) (rank : θ → σ → α) (helps : θ → σ → Prop) : Prop :=
  ∀ ⦃s e t τ⦄, I s → helps τ s → allowed s e → step s e = some t →
    Goal t ∨ (∃ τ', helps τ' t ∧ rank τ' t < rank τ s) ∨
    helps τ t ∧ rank τ t = rank τ s ∧ thread e ≠ some τ

/-- An execution meets the goal when a helper that waits for ever has its turn, and ranks
cannot fall for ever. -/
theorem Helped.reaches [WellFoundedLT α] (hh : Helped step thread I Goal allowed rank helps)
    {i : Nat} (hI : ∀ j, i ≤ j → I (x.state j))
    (ha : ∀ j e, i ≤ j → x.event j = some e → allowed (x.state j) e)
    (hturn : ∀ τ m, i ≤ m → (∀ j, m ≤ j → helps τ (x.state j)) →
      ∃ j, m ≤ j ∧ ∃ e, x.event j = some e ∧ thread e = some τ)
    {τ : θ} (h : helps τ (x.state i)) : ∃ j, i ≤ j ∧ Goal (x.state j) := by
  generalize hr : rank τ (x.state i) = r
  induction r using WellFoundedLT.induction generalizing i τ with
  | ind r ih =>
    by_contra hne
    have hno : ∀ j, i ≤ j → ¬ Goal (x.state j) := fun j hj hg => hne ⟨j, hj, hg⟩
    have hlater : ∀ {j τ'}, i ≤ j → helps τ' (x.state j) → ¬ rank τ' (x.state j) < r := by
      intro j τ' hj hp hl
      obtain ⟨k, hk, hg⟩ := ih _ hl (fun k hk => hI k (hj.trans hk))
        (fun k e hk => ha k e (hj.trans hk)) (fun τ m hm => hturn τ m (hj.trans hm)) hp rfl
      exact hno k (hj.trans hk) hg
    have hstep : ∀ k e, x.event (i + k) = some e → helps τ (x.state (i + k)) →
        rank τ (x.state (i + k)) = r → helps τ (x.state (i + k + 1)) ∧
          rank τ (x.state (i + k + 1)) = rank τ (x.state (i + k)) ∧ thread e ≠ some τ := by
      intro k e he hp hr
      rcases hh (hI _ (by omega)) hp (ha _ _ (by omega) he) (x.next_some he) with
        hg | ⟨τ', hp', hl⟩ | hwait
      · exact absurd hg (hno _ (by omega))
      · exact absurd (hr ▸ hl) (hlater (by omega) hp')
      · exact hwait
    have hwaits : ∀ k, helps τ (x.state (i + k)) ∧ rank τ (x.state (i + k)) = r := by
      intro k
      induction k with
      | zero => exact ⟨h, hr⟩
      | succ k ihk =>
        cases he : x.event (i + k) with
        | none =>
          rw [← Nat.add_assoc, x.next_none he]
          exact ihk
        | some e =>
          obtain ⟨hp, hs, -⟩ := hstep k e he ihk.1 ihk.2
          exact ⟨hp, hs.trans ihk.2⟩
    obtain ⟨j, hj, e, he, ht⟩ := hturn τ i le_rfl fun j hj => by
      obtain ⟨k, rfl⟩ := Nat.exists_eq_add_of_le hj
      exact (hwaits k).1
    obtain ⟨k, rfl⟩ := Nat.exists_eq_add_of_le hj
    exact (hstep k e he (hwaits k).1 (hwaits k).2).2.2 ht

end Fair
end CommonProject.Foundations
