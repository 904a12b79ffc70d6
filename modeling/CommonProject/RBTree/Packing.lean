import CommonProject.RBTree.Frame
import CommonProject.RBTree.Safety
import CommonProject.RBTree.WordMaps

/-! The code on packed words does what it does on a parent field and a colour field. -/
namespace CommonProject.RBTree
open Foundations Foundations.RedBlack Foundations.RedBlack.ColorTree
variable {α V W ρ : Type}

section Calls
variable [Word α V] [Word α W] [DecidableEq α] [DecidableEq ρ] {φ : V → W}

private theorem mapped_program (hφ : WordMap α φ) (op : Op α ρ) (root : ρ) (fuel : Nat) :
    Mapped φ (op.program root fuel : Prog α V ρ _) (op.program root fuel) := by
  cases op with
  | insert x parent rbLink => exact mapped_rbInsert hφ fuel (some x) parent rbLink root
  | erase x => exact mapped_rbErase hφ fuel (some x) root

private theorem mapped_start (hφ : WordMap α φ) (op : Op α ρ) (root : ρ) (fuel : Nat) :
    Mapped φ (op.start root fuel : Prog α V ρ _) (op.start root fuel) := by
  cases op with
  | insert x parent rbLink =>
    refine .bind (mapped_rbLinkNode hφ (some x) parent rbLink) fun _ => ?_
    exact .bind (mapped_rbRedParent hφ (some x)) fun _ => .pure _
  | erase x => exact .bind (mapped_rbEraseAugmented hφ fuel (some x) root) fun _ => .pure _

private theorem mapped_turn (hφ : WordMap α φ) (op : Op α ρ) (root : ρ) (node parent : Option α) :
    Mapped φ (op.turn root node parent : Prog α V ρ _) (op.turn root node parent) := by
  cases op with
  | insert x _ rbLink => exact mapped_rbInsertTurn hφ node parent root
  | erase x => exact mapped_rbEraseColorTurn hφ node parent root

def Head.mapWord (φ : V → W) (h : Head α V ρ) : Head α W ρ :=
  ⟨h.node, h.parent, h.memory.mapWord φ⟩

/-- The loop begins its turns with the same nodes, and with the images of the memories. -/
private theorem reachable_mapWord (hφ : WordMap α φ) {op : Op α ρ} {root : ρ} {h₀ h : Head α V ρ}
    (hr : Reachable (repeatTurn (op.turn root)) h₀ h) :
    Reachable (repeatTurn (op.turn root)) (h₀.mapWord φ) (h.mapWord φ) := by
  refine hr.invariant (P := fun h => Reachable (repeatTurn (op.turn root)) (h₀.mapWord φ)
    (h.mapWord φ)) (.refl _) ?_
  intro a u b ha hstep
  rw [repeatTurn_eq_some] at hstep
  have hturn := (mapped_turn hφ op root a.node a.parent).run_ok hstep
  exact ha.tail (repeatTurn_eq_some (u := u).mpr hturn)

end Calls

section Unpacking

def unpackWord (w : BitVec 64) : Option Address × Color := (Word.parent w, Word.color Address w)

private theorem unpackWord_pack (p : Option Address) (c : Color) :
    unpackWord (bits p ||| bit c) = (p, c) :=
  Prod.ext (Word.parent_pack p c) (Word.color_pack p c)

private theorem eq_bits_of_nodeAt {w : BitVec 64} {p : Option Address} (h : nodeAt w = some p) :
    w = bits p := by
  rw [nodeAt] at h
  split at h
  · cases h
    assumption
  · split at h
    · cases h
      rfl
    · cases h

private theorem unpackWord_setBlack (w : BitVec 64) :
    unpackWord (w ||| 1#64) = ((unpackWord w).1, .black) := by
  have hparent : (w ||| 1#64) &&& ~~~3#64 = w &&& ~~~3#64 := by
    have hbit : 1#64 &&& ~~~3#64 = 0#64 := rfl
    rw [BitVec.and_or_distrib_right, hbit, BitVec.or_zero]
  have hcolor : (w ||| 1#64) &&& 1#64 ≠ 0#64 := by
    intro h
    have hbit := congrArg (fun v => v.getLsbD 0) h
    simp at hbit
  refine Prod.ext ?_ (if_neg hcolor)
  exact congrArg (fun v => (nodeAt v).join) hparent

private theorem wordMap_unpackWord : WordMap Address unpackWord where
  pack := unpackWord_pack
  parent _ := rfl
  color _ := rfl
  redParent w := by
    change nodeAt w = none ∨ Word.redParent (unpackWord w) = nodeAt w
    cases h : nodeAt w with
    | none => exact .inl rfl
    | some p =>
      have hw : unpackWord w = (p, .red) := by
        rw [eq_bits_of_nodeAt h, ← unpackWord_pack p .red]
        exact congrArg unpackWord (BitVec.or_zero ..).symm
      rw [hw]
      exact .inr rfl
  setBlack := unpackWord_setBlack

def Exact (w : BitVec 64) : Prop := w = bits (unpackWord w).1 ||| bit (unpackWord w).2

private theorem exact_pack (p : Option Address) (c : Color) : Exact (Word.pack p c) := by
  have hw : unpackWord (Word.pack p c) = (p, c) := unpackWord_pack p c
  rw [Exact, hw]
  rfl

abbrev Memory.unpack (m : Memory Address (BitVec 64) ρ) : Memory Address (Option Address × Color) ρ :=
  m.mapWord unpackWord

def State.unpack (s : State Address (BitVec 64) ρ) : State Address (Option Address × Color) ρ :=
  ⟨s.memory.unpack, s.live⟩

end Unpacking

section Runs
variable [DecidableEq ρ] {root : ρ} {s s' : State Address (BitVec 64) ρ} {t : ColorTree Address}

/-- A legal call does the same on the fields. -/
private theorem run_program_unpack {op : Op Address ρ} (h : RedBlackTree s.memory root s.live t)
    (hlegal : Legal root s op) (fuel : Nat) :
    (op.program root fuel).run s.unpack.memory =
      ((op.program root fuel).run s.memory).map fun r => (r.1, r.2.unpack) := by
  refine (mapped_program wordMap_unpackWord op root fuel).run_eq ?_
  rintro e he rfl
  cases legal_fault h hlegal he

omit [DecidableEq ρ] in
private theorem legal_unpack {op : Op Address ρ} : Legal root s.unpack op ↔ Legal root s op := by
  cases op with
  | insert x parent rbLink => cases rbLink <;> rfl
  | erase x => rfl

private theorem step_unpack (h : RedBlackTree s.memory root s.live t) (call : Op Address ρ × Nat) :
    step root s.unpack call = (step root s call).map State.unpack := by
  by_cases hl : Legal root s call.1
  · rw [step, step, if_pos hl, if_pos (legal_unpack.mpr hl), outcome, outcome, run_program_unpack h hl]
    cases (call.1.program root call.2).run s.memory <;> rfl
  · rw [step, step, if_neg hl, if_neg (mt legal_unpack.mp hl)]
    rfl

private theorem run_unpack (h : ∃ t, RedBlackTree s.memory root s.live t)
    (calls : List (Op Address ρ × Nat)) :
    run (step root) s.unpack calls = (run (step root) s calls).map State.unpack := by
  induction calls generalizing s with
  | nil => rfl
  | cons call calls ih =>
    obtain ⟨t, ht⟩ := h
    rw [run, run, step_unpack ht]
    cases hstep : step root s call with
    | none => rfl
    | some s₁ => exact ih (step_redBlackTree ⟨t, ht⟩ hstep)

def Op.node : Op Address ρ → Address
  | .insert x _ _ => x
  | .erase x => x

omit [DecidableEq ρ] in
private theorem RedBlackTree.exact {x : Address} (h : RedBlackTree s.memory root s.live t)
    (hx : x ∈ s.live) : Exact (s.memory.rbParentColor x) := by
  obtain ⟨ctx, c, l, r, rfl⟩ := exists_plug (h.perm.mem_iff.mpr hx)
  rw [(at_plug.mpr h.toAt).rep.1]
  exact exact_pack _ c

private theorem step_exact {call : Op Address ρ × Nat} {x : Address}
    (h : ∃ t, RedBlackTree s.memory root s.live t) (hstep : step root s call = some s')
    (hx : Exact (s.memory.rbParentColor x) ∨ call.1.node = x) :
    Exact (s'.memory.rbParentColor x) := by
  obtain ⟨t', ht'⟩ := step_redBlackTree h hstep
  by_cases hlive : x ∈ s'.live
  · exact ht'.exact hlive
  · obtain ⟨t, ht⟩ := h
    rw [((step_changesOnly ht hstep).outside x hlive).1]
    rcases hx with hx | hx
    · exact hx
    · obtain ⟨hlegal, m', -, rfl⟩ := step_eq_some.mp hstep
      obtain ⟨op, k⟩ := call
      cases op with
      | insert y parent rbLink => exact absurd (by simp [Op.after, ← hx, Op.node]) hlive
      | erase y =>
        obtain rfl : y = x := hx
        exact ht.exact hlegal

/-- The words of all nodes that were ever linked. -/
private theorem run_exact {calls : List (Op Address ρ × Nat)} {x : Address}
    (h : ∃ t, RedBlackTree s.memory root s.live t) (hrun : run (step root) s calls = some s')
    (hx : Exact (s.memory.rbParentColor x) ∨ ∃ call ∈ calls, call.1.node = x) :
    Exact (s'.memory.rbParentColor x) := by
  induction calls generalizing s with
  | nil =>
    obtain rfl := Option.some.inj hrun
    exact hx.resolve_right (by simp)
  | cons call calls ih =>
    obtain ⟨s₁, hstep, hrest⟩ := Option.bind_eq_some_iff.mp hrun
    refine ih (step_redBlackTree h hstep) hrest ?_
    rw [List.exists_mem_cons_iff, ← or_assoc] at hx
    exact hx.imp_left (step_exact h hstep)

/-- The packed words refine separate fields: every run on the fields is the image of the run on the
words, every read of a parent or of a colour gives the field, and the bare cast of `rb_red_parent`,
which on the fields stands for a red node only, is never made elsewhere. -/
theorem packed_words_refine_fields {m : Memory Address (BitVec 64) ρ} (h₀ : m.rbNode root = none)
    (calls : List (Op Address ρ × Nat)) :
    run (step root) (State.unpack ⟨m, []⟩) calls = (run (step root) ⟨m, []⟩ calls).map State.unpack ∧
    (∀ s, run (step root) ⟨m, []⟩ calls = some s →
      (∀ x, (x ∈ s.live ∨ ∃ call ∈ calls, call.1.node = x) →
        s.memory.rbParentColor x = bits (s.unpack.memory.rbParentColor x).1 |||
          bit (s.unpack.memory.rbParentColor x).2) ∧
      ∀ op fuel, Legal root s op →
        (op.program root fuel).run s.unpack.memory =
          ((op.program root fuel).run s.memory).map (fun r => (r.1, r.2.unpack)) ∧
        (op.program root fuel).run s.unpack.memory ≠ .error .wildPointer ∧
        ∀ node parent m₁, (op.start root fuel).run s.memory = .ok (some (node, parent), m₁) →
          (op.start root fuel).run s.unpack.memory = .ok (some (node, parent), m₁.unpack) ∧
          ∀ h, Reachable (repeatTurn (op.turn root)) ⟨node, parent, m₁⟩ h →
            Reachable (repeatTurn (op.turn root)) ⟨node, parent, m₁.unpack⟩
              ⟨h.node, h.parent, h.memory.unpack⟩) ∧
    (∀ (m' : Memory Address (BitVec 64) ρ) p,
      (rbParent p).run m'.unpack = ((rbParent p).run m').map (fun r => (r.1, r.2.unpack)) ∧
      (rbColor p).run m'.unpack = ((rbColor p).run m').map (fun r => (r.1, r.2.unpack))) ∧
    ∀ (m' : Memory Address (Option Address × Color) ρ) x, (m'.rbParentColor x).2 = .black →
      (rbRedParent (some x)).run m' = .error .wildPointer := by
  have hempty : ∃ t, RedBlackTree (State.mk m []).memory root [] t := ⟨_, empty_redBlackTree h₀⟩
  refine ⟨run_unpack hempty calls, fun s hs => ⟨fun x hx => ?_, fun op fuel hlegal => ?_⟩, ?_, ?_⟩
  · obtain ⟨t, ht⟩ := reachable_redBlackTree h₀ ⟨calls, hs⟩
    rcases hx with hx | hx
    · exact ht.exact hx
    · exact run_exact hempty hs (.inr hx)
  · obtain ⟨t, ht⟩ := reachable_redBlackTree h₀ ⟨calls, hs⟩
    have hsame := run_program_unpack ht hlegal fuel
    refine ⟨hsame, fun hwild => ?_, fun node parent m₁ hstart => ⟨?_, fun h hr => ?_⟩⟩
    · rw [hsame] at hwild
      cases hrun : (op.program root fuel).run s.memory with
      | error e =>
        rw [hrun] at hwild
        obtain rfl := legal_fault ht hlegal hrun
        cases hwild
      | ok r =>
        rw [hrun] at hwild
        cases hwild
    · exact (mapped_start wordMap_unpackWord op root fuel).run_ok hstart
    · exact reachable_mapWord wordMap_unpackWord hr
  · intro m' p
    cases p <;> exact ⟨rfl, rfl⟩
  · intro m' x hx
    have hcast : Word.redParent (m'.rbParentColor x) = (none : Option (Option Address)) :=
      if_neg (by simp [hx])
    rw [rbRedParent, StateT.run_bind, run_loadParentColor, pure_bind, hcast]
    rfl

/-- Two nodes on words that were zero, and on the fields read off them. -/
theorem two_nodes_packed :
    ∃ s s' : State Address (BitVec 64) Unit, run (step ()) s
        [(.insert ⟨8#64, by decide⟩ none (.rbNode ()), 1),
          (.insert ⟨48#64, by decide⟩ (some ⟨8#64, by decide⟩) (.rbRight ⟨8#64, by decide⟩), 2)] = some s' ∧
      run (step ()) s.unpack
        [(.insert ⟨8#64, by decide⟩ none (.rbNode ()), 1),
          (.insert ⟨48#64, by decide⟩ (some ⟨8#64, by decide⟩) (.rbRight ⟨8#64, by decide⟩), 2)] =
            some s'.unpack ∧
      s'.memory.rbParentColor ⟨48#64, by decide⟩ = 8#64 := by
  have hnull : (⟨fun _ => 0#64, fun _ => none, fun _ => none, fun _ => none⟩ :
      Memory Address (BitVec 64) Unit).rbNode () = none := rfl
  have hrefine := packed_words_refine_fields hnull
    [(.insert ⟨8#64, by decide⟩ none (.rbNode ()), 1),
      (.insert ⟨48#64, by decide⟩ (some ⟨8#64, by decide⟩) (.rbRight ⟨8#64, by decide⟩), 2)]
  exact ⟨_, _, rfl, hrefine.1, rfl⟩

end Runs
end CommonProject.RBTree
