import Mathlib.Init

/-! Programs over the 32-bit `int` of C that write down what they call, with the rules for what is
true when they end. A value outside the range ends the program otherwise, as nothing is said about
it any more. -/
namespace CommonProject.Foundations
variable {κ β γ : Type}

def InInt (n : Int) : Prop := -2147483648 ≤ n ∧ n ≤ 2147483647

instance (n : Int) : Decidable (InInt n) := inferInstanceAs (Decidable (_ ∧ _))

abbrev CInt := { n : Int // InInt n }

def CInt.of (n : Int) (h : InInt n := by decide) : CInt := ⟨n, h⟩

inductive IntFault
  | overflow
  deriving DecidableEq, Repr

/-- A program with the calls it has made so far. -/
abbrev Checked (κ β : Type) := StateT (List κ) (Except IntFault) β

def compute (n : Int) : Checked κ CInt := if h : InInt n then pure ⟨n, h⟩ else throw .overflow

def record (call : κ) : Checked κ Unit := modify (· ++ [call])

/-- Whatever was called before, the program ends with a value and calls of which this is true. -/
def Ends (p : Checked κ β) (Q : β → List κ → Prop) : Prop :=
  ∃ b calls, (∀ past, p.run past = .ok (b, past ++ calls)) ∧ Q b calls

def Overflows (p : Checked κ β) : Prop := ∀ past, p.run past = .error .overflow

variable {p : Checked κ β} {f : β → Checked κ γ} {Q Q' : β → List κ → Prop} {R : γ → List κ → Prop}
  {n : Int}

theorem Ends.mono (hp : Ends p Q) (h : ∀ b calls, Q b calls → Q' b calls) : Ends p Q' := by
  obtain ⟨b, calls, hrun, hq⟩ := hp
  exact ⟨b, calls, hrun, h b calls hq⟩

theorem Ends.pure {b : β} (h : Q b []) : Ends (Pure.pure b) Q :=
  ⟨b, [], fun past => by rw [List.append_nil]; rfl, h⟩

theorem Ends.bind (hp : Ends p Q)
    (hf : ∀ b calls, Q b calls → Ends (f b) fun c calls' => R c (calls ++ calls')) :
    Ends (p >>= f) R := by
  obtain ⟨b, calls, hrun, hq⟩ := hp
  obtain ⟨c, calls', hrun', hr⟩ := hf b calls hq
  refine ⟨c, calls ++ calls', fun past => ?_, hr⟩
  rw [StateT.run_bind, hrun past]
  exact (hrun' (past ++ calls)).trans (by rw [List.append_assoc])

/-- A value in range is exact. -/
theorem Ends.compute {f : CInt → Checked κ γ} (h : InInt n) (hf : Ends (f ⟨n, h⟩) R) :
    Ends (Foundations.compute n >>= f) R := by
  rw [Foundations.compute, dif_pos h, pure_bind]
  exact hf

theorem Ends.record {f : Unit → Checked κ γ} {call : κ}
    (hf : Ends (f ()) fun c calls => R c (call :: calls)) : Ends (Foundations.record call >>= f) R := by
  obtain ⟨c, calls, hrun, hr⟩ := hf
  refine ⟨c, call :: calls, fun past => ?_, hr⟩
  exact (hrun (past ++ [call])).trans (by rw [List.append_assoc, List.singleton_append])

theorem Ends.run (hp : Ends p Q) : ∃ b calls, p.run [] = .ok (b, calls) ∧ Q b calls := by
  obtain ⟨b, calls, hrun, hq⟩ := hp
  exact ⟨b, calls, hrun [], hq⟩

/-- A program has one outcome. -/
theorem Ends.of_run (hp : Ends p Q) {b : β} {calls : List κ} (h : p.run [] = .ok (b, calls)) :
    Q b calls := by
  obtain ⟨b', calls', hrun, hq⟩ := hp.run
  rw [hrun] at h
  cases h
  exact hq

theorem Overflows.compute {f : CInt → Checked κ γ} (h : ¬ InInt n) :
    Overflows (Foundations.compute n >>= f) := by
  intro past
  rw [Foundations.compute, dif_neg h]
  rfl

theorem Overflows.bind (hp : Overflows p) : Overflows (p >>= f) := by
  intro past
  rw [StateT.run_bind, hp past]
  rfl

/-- What is true before an overflow does not matter. -/
theorem Ends.overflows (hp : Ends p Q) (hf : ∀ b calls, Q b calls → Overflows (f b)) :
    Overflows (p >>= f) := by
  intro past
  obtain ⟨b, calls, hrun, hq⟩ := hp
  rw [StateT.run_bind, hrun past]
  exact hf b calls hq (past ++ calls)

theorem Overflows.after_compute {f : CInt → Checked κ γ} (h : InInt n) (hf : Overflows (f ⟨n, h⟩)) :
    Overflows (Foundations.compute n >>= f) := by
  rw [Foundations.compute, dif_pos h, pure_bind]
  exact hf

theorem Overflows.after_record {f : Unit → Checked κ γ} {call : κ} (hf : Overflows (f ())) :
    Overflows (Foundations.record call >>= f) := fun past => hf (past ++ [call])

theorem Overflows.not_run (hp : Overflows p) {r : β × List κ} (h : p.run [] = .ok r) : False := by
  rw [hp []] at h
  cases h

end CommonProject.Foundations
