import CommonProject.RBTree.Frame
import CommonProject.RBTree.Iteration

/-! Any number of trees over the same nodes, of which `RB_EMPTY_NODE` tells the linked ones. -/
namespace CommonProject.RBTree
open Foundations Foundations.RedBlack
variable {α W ρ : Type}

section Programs
variable [DecidableEq α] [DecidableEq ρ] [DecidableEq W] [Word α W]

def rbClearNode (node : Option α) : Prog α W ρ Unit :=
  storeParentColor node (Word.ofParent node)

/-- The guarded insertion, and whether it took place. -/
def insertIfEmpty (fuel : Nat) (x : α) (parent : Option α) (rbLink : Slot α ρ) (root : ρ) :
    Prog α W ρ Bool := do
  if ← rbEmptyNode (some x) then
    rbInsert fuel (some x) parent rbLink root
    return true
  else return false

def eraseAndClear (fuel : Nat) (x : α) (root : ρ) : Prog α W ρ Unit := do
  rbErase fuel (some x) root
  rbClearNode (some x)

end Programs

/-- The memory, the nodes in the tree of every root, and the nodes that were cleared before their
first use. -/
structure Forest (α W ρ : Type) where
  memory : Memory α W ρ
  live : ρ → List α
  known : List α

inductive Move (α ρ : Type)
  | clear (x : α)
  | insert (root : ρ) (x : α) (parent : Option α) (rbLink : Slot α ρ)
  | erase (root : ρ) (x : α)
  deriving DecidableEq, Repr

namespace Move

/-- A new node is cleared once. A known node, in a tree or not, may be offered for an empty link of
any tree, and a node may be erased from the tree that it is in. -/
def Legal (s : Forest α W ρ) : Move α ρ → Prop
  | clear x => x ∉ s.known
  | insert root x parent rbLink =>
    x ∈ s.known ∧ OnTree root (s.live root) parent rbLink ∧ s.memory.read rbLink = none
  | erase root x => x ∈ s.live root

variable [DecidableEq α] [DecidableEq ρ]

instance (s : Forest α W ρ) (mv : Move α ρ) : Decidable (mv.Legal s) :=
  match mv with
  | clear x => inferInstanceAs (Decidable (x ∉ s.known))
  | insert root x parent rbLink =>
    inferInstanceAs (Decidable (x ∈ s.known ∧ OnTree root (s.live root) parent rbLink ∧
      s.memory.read rbLink = none))
  | erase root x => inferInstanceAs (Decidable (x ∈ s.live root))

def program [DecidableEq W] [Word α W] (fuel : Nat) : Move α ρ → Prog α W ρ Bool
  | clear x => do
    rbClearNode (some x)
    return true
  | insert root x parent rbLink => insertIfEmpty fuel x parent rbLink root
  | erase root x => do
    eraseAndClear fuel x root
    return true

/-- The number of nodes in the tree that the move is about. -/
def load (s : Forest α W ρ) : Move α ρ → Nat
  | clear _ => 0
  | insert root _ _ _ => (s.live root).length
  | erase root _ => (s.live root).length

def liveAfter (live : ρ → List α) (done : Bool) : Move α ρ → ρ → List α
  | clear _ => live
  | insert root x _ _ => if done then Function.update live root (live root ++ [x]) else live
  | erase root x => Function.update live root ((live root).erase x)

def knownAfter (known : List α) : Move α ρ → List α
  | clear x => x :: known
  | _ => known

end Move

variable [DecidableEq α] [DecidableEq ρ] [DecidableEq W] [Word α W]

def move (s : Forest α W ρ) (call : Move α ρ × Nat) : Option (Forest α W ρ) :=
  if call.1.Legal s then
    ((call.1.program call.2).run s.memory).toOption.map fun r =>
      ⟨r.2, call.1.liveAfter s.live r.1, call.1.knownAfter s.known⟩
  else none

/-- Every tree is in order, no node is in two, and a known node in none has itself for a parent. -/
structure Tidy (s : Forest α W ρ) : Prop where
  trees : ∀ r, ∃ t, RedBlackTree s.memory r (s.live r) t
  apart : ∀ r r' x, x ∈ s.live r → x ∈ s.live r' → r = r'
  known : ∀ r, ∀ x ∈ s.live r, x ∈ s.known
  empty : ∀ x ∈ s.known, (∀ r, x ∉ s.live r) → s.memory.rbParentColor x = Word.ofParent (some x)

section Tidy
variable {s s' : Forest α W ρ} {m m' : Memory α W ρ} {root : ρ} {x : α} {mv : Move α ρ} {fuel : Nat}

omit [DecidableEq α] [DecidableEq ρ] in
private theorem run_rbEmptyNode_word (m : Memory α W ρ) (x : α) :
    (rbEmptyNode (some x)).run m =
      (pure (decide (m.rbParentColor x = Word.ofParent (some x)), m) : Except Fault _) := by
  rw [rbEmptyNode, StateT.run_bind, run_loadParentColor, pure_bind]
  rfl

omit [DecidableEq α] [DecidableEq ρ] in
/-- A known node is empty exactly when it is in no tree. -/
private theorem Tidy.empty_iff (h : Tidy s) (hx : x ∈ s.known) :
    s.memory.rbParentColor x = Word.ofParent (some x) ↔ ∀ r, x ∉ s.live r := by
  refine ⟨fun hempty r hxr => ?_, h.empty x hx⟩
  obtain ⟨t, ht⟩ := h.trees r
  obtain ⟨ctx, c, l, rt, rfl⟩ := exists_plug (ht.perm.mem_iff.mpr hxr)
  have hrun := run_rbEmptyNode (W := W) (at_plug.mpr ht.toAt) (root_node ..)
  rw [run_rbEmptyNode_word, decide_eq_true hempty] at hrun
  cases hrun

omit [DecidableEq α] [DecidableEq W] in
/-- A node comes into one tree or goes out of it, and the other trees stay as they are. -/
private theorem Tidy.update {live : List α} {t : ColorTree α} (h : Tidy s)
    (htree : RedBlackTree m root live t) (hchanges : ChangesOnly root (x :: live) s.memory m)
    (hx : x ∈ s.known) (hother : ∀ r, r ≠ root → x ∉ s.live r)
    (hmem : ∀ y, y ≠ x → (y ∈ live ↔ y ∈ s.live root))
    (hgone : x ∉ live → m.rbParentColor x = Word.ofParent (some x)) :
    Tidy ⟨m, Function.update s.live root live, s.known⟩ := by
  have hin : ∀ r y, y ∈ Function.update s.live root live r →
      (y = x → r = root) ∧ (y ≠ x → y ∈ s.live r) := by
    intro r y hy
    by_cases hr : r = root
    · subst hr
      rw [Function.update_self] at hy
      exact ⟨fun _ => rfl, fun hne => (hmem y hne).mp hy⟩
    · rw [Function.update_of_ne hr] at hy
      refine ⟨?_, fun _ => hy⟩
      rintro rfl
      exact absurd hy (hother r hr)
  refine ⟨fun r => ?_, fun r r' y hy hy' => ?_, fun r y hy => ?_, fun y hy hfree => ?_⟩
  · dsimp only
    by_cases hr : r = root
    · subst hr
      rw [Function.update_self]
      exact ⟨t, htree⟩
    · obtain ⟨t', ht'⟩ := h.trees r
      rw [Function.update_of_ne hr]
      refine ⟨t', ht'.congr (fun y hy => hchanges.outside y ?_) (hchanges.roots r hr)⟩
      rw [List.mem_cons, not_or]
      have hne : y ≠ x := by
        rintro rfl
        exact hother r hr hy
      exact ⟨hne, fun hlive => hr (h.apart r root y hy ((hmem y hne).mp hlive))⟩
  · by_cases hyx : y = x
    · exact ((hin r y hy).1 hyx).trans ((hin r' y hy').1 hyx).symm
    · exact h.apart r r' y ((hin r y hy).2 hyx) ((hin r' y hy').2 hyx)
  · by_cases hyx : y = x
    · exact hyx ▸ hx
    · exact h.known r y ((hin r y hy).2 hyx)
  · have hroot : y ∉ Function.update s.live root live root := hfree root
    rw [Function.update_self] at hroot
    by_cases hyx : y = x
    · subst hyx
      exact hgone hroot
    · have hout : y ∉ x :: live := by simp [hyx, hroot]
      rw [show m.rbParentColor y = _ from (hchanges.outside y hout).1]
      refine h.empty y hy fun r => ?_
      by_cases hr : r = root
      · subst hr
        exact fun hlive => hroot ((hmem y hyx).mpr hlive)
      · have hfree' : y ∉ Function.update s.live root live r := hfree r
        rwa [Function.update_of_ne hr] at hfree'

/-- An offered node is linked if it is in no tree, and left alone otherwise. -/
private theorem Tidy.insert {parent : Option α} {rbLink : Slot α ρ} (h : Tidy s)
    (hlegal : (Move.insert root x parent rbLink).Legal s) (hfuel : (s.live root).length < fuel) :
    ∃ s', move s (.insert root x parent rbLink, fuel) = some s' ∧ Tidy s' := by
  obtain ⟨hx, hplace, hnull⟩ := hlegal
  by_cases hempty : s.memory.rbParentColor x = Word.ofParent (some x)
  · have hfree := (h.empty_iff hx).mp hempty
    obtain ⟨t, ht⟩ := h.trees root
    obtain ⟨m', t', hrun, htree, hchanges⟩ := insert_changesOnly ht (hfree root) hplace hnull hfuel
    have hprogram : (insertIfEmpty fuel x parent rbLink root).run s.memory = .ok (true, m') := by
      rw [insertIfEmpty, StateT.run_bind, run_rbEmptyNode_word, decide_eq_true hempty, pure_bind]
      simp only [if_true, StateT.run_bind, hrun]
      rfl
    refine ⟨⟨m', Function.update s.live root (s.live root ++ [x]), s.known⟩, ?_, ?_⟩
    · rw [move, if_pos ⟨hx, hplace, hnull⟩]
      simp only [Move.program, hprogram]
      rfl
    · refine h.update htree ⟨fun y hy => hchanges.outside y fun hmem => hy ?_, hchanges.roots⟩ hx
        (fun r _ => hfree r) (fun y hne => by simp [hne]) fun hgone => absurd (by simp) hgone
      exact List.mem_cons_of_mem _ hmem
  · have hprogram : (insertIfEmpty fuel x parent rbLink root).run s.memory = .ok (false, s.memory) := by
      rw [insertIfEmpty, StateT.run_bind, run_rbEmptyNode_word, decide_eq_false hempty, pure_bind]
      rfl
    refine ⟨s, ?_, h⟩
    rw [move, if_pos ⟨hx, hplace, hnull⟩]
    simp only [Move.program, hprogram]
    rfl

private theorem Tidy.erase (h : Tidy s) (hx : x ∈ s.live root)
    (hfuel : (s.live root).length < fuel) :
    ∃ s', move s (.erase root x, fuel) = some s' ∧ Tidy s' := by
  obtain ⟨t, ht⟩ := h.trees root
  obtain ⟨-, -, m', t', -, hrun, htree, hchanges, -, -⟩ := erase_changesOnly ht hx hfuel
  have hnd := ht.perm.nodup_iff.mp ht.nodup
  have hgone : x ∉ (s.live root).erase x := fun hmem => (hnd.mem_erase_iff.mp hmem).1 rfl
  have hprogram : (eraseAndClear fuel x root).run s.memory =
      .ok ((), m'.setParentColor x (Word.ofParent (some x))) := by
    rw [eraseAndClear, StateT.run_bind, hrun]
    rfl
  have hclear : ∀ y, y ≠ x → SameAt m' (m'.setParentColor x (Word.ofParent (some x))) y := fun y hy =>
    (sameAt_setParentColor_right hy).mpr (.refl ..)
  refine ⟨⟨m'.setParentColor x (Word.ofParent (some x)),
    Function.update s.live root ((s.live root).erase x), s.known⟩, ?_, ?_⟩
  · rw [move, if_pos (show (Move.erase root x).Legal s from hx)]
    simp only [Move.program, StateT.run_bind, hprogram]
    rfl
  · refine h.update (htree.congr (fun y hy => hclear y ?_) rfl) ⟨fun y hy => ?_, hchanges.roots⟩
      (h.known root x hx) (fun r hr hxr => hr (h.apart r root x hxr hx))
      (fun y hne => List.mem_erase_of_ne hne) fun _ => Memory.setParentColor_self
    · rintro rfl
      exact hgone hy
    · rw [List.mem_cons, not_or] at hy
      exact (sameAt_congr_right (hclear y hy.1)).mpr (hchanges.outside y hy.2)

private theorem Tidy.clear (h : Tidy s) (hx : x ∉ s.known) (fuel : Nat) :
    ∃ s', move s (.clear x, fuel) = some s' ∧ Tidy s' := by
  have hfree : ∀ r, x ∉ s.live r := fun r hxr => hx (h.known r x hxr)
  have hclear : ∀ y, y ≠ x →
      SameAt s.memory (s.memory.setParentColor x (Word.ofParent (some x))) y := fun y hy =>
    (sameAt_setParentColor_right hy).mpr (.refl ..)
  refine ⟨⟨s.memory.setParentColor x (Word.ofParent (some x)), s.live, x :: s.known⟩, ?_, ?_⟩
  · rw [move, if_pos (show (Move.clear x).Legal s from hx)]
    rfl
  · refine ⟨fun r => ?_, h.apart, fun r y hy => List.mem_cons_of_mem x (h.known r y hy), ?_⟩
    · obtain ⟨t, ht⟩ := h.trees r
      refine ⟨t, ht.congr (fun y hy => hclear y ?_) rfl⟩
      rintro rfl
      exact hfree r hy
    · intro y hy hfree
      rcases List.mem_cons.mp hy with rfl | hknown
      · exact Memory.setParentColor_self
      · have hne : y ≠ x := by
          rintro rfl
          exact hx hknown
        rw [(hclear y hne).1]
        exact h.empty y hknown hfree

/-- Every legal move comes to an end and leaves all in order. -/
private theorem Tidy.legal (h : Tidy s) (hlegal : mv.Legal s) (hfuel : mv.load s < fuel) :
    ∃ s', move s (mv, fuel) = some s' ∧ Tidy s' := by
  cases mv with
  | clear x => exact h.clear hlegal fuel
  | insert root x parent rbLink => exact h.insert hlegal hfuel
  | erase root x => exact h.erase hlegal hfuel

private theorem settled_move (mv : Move α ρ) :
    Settled fun k => (mv.program k : Prog α W ρ Bool) := by
  cases mv with
  | clear x => exact .const _
  | insert root x parent rbLink =>
    exact .bind (.const _) fun _ => .ite (.bind (settled_rbInsert ..) fun _ => .const _) (.const _)
  | erase root x =>
    exact .bind (.bind (settled_rbErase ..) fun _ => .const _) fun _ => .const _

/-- Every move, whatever its bound on the turns was. -/
private theorem tidy_of_move {call : Move α ρ × Nat} (h : Tidy s) (hmove : move s call = some s') :
    Tidy s' := by
  obtain ⟨mv, fuel⟩ := call
  rw [move, Option.ite_none_right_eq_some, Option.map_eq_some_iff] at hmove
  obtain ⟨hlegal, r, hr, rfl⟩ := hmove
  have hrun : (mv.program fuel).run s.memory = .ok r := by
    cases hp : (mv.program fuel).run s.memory with
    | error e =>
      rw [hp] at hr
      cases hr
    | ok r' =>
      rw [hp] at hr
      exact congrArg _ (Option.some.inj hr)
  have hmore := (settled_move mv).stable (Nat.le_add_left fuel (mv.load s + 1)) hrun
  have hfuel : mv.load s < mv.load s + 1 + fuel := by omega
  obtain ⟨s', hs', htidy⟩ := h.legal hlegal hfuel
  rw [move, if_pos hlegal, hmore] at hs'
  obtain rfl := Option.some.inj hs'
  exact htidy

omit [DecidableEq α] [DecidableEq ρ] [DecidableEq W] in
/-- Roots are `RB_ROOT`, and no node is known. -/
private theorem tidy_start (h₀ : ∀ r, m.rbNode r = none) :
    Tidy (⟨m, fun _ => [], []⟩ : Forest α W ρ) :=
  ⟨fun r => ⟨_, empty_redBlackTree (h₀ r)⟩, fun _ _ _ hx => by simp at hx, fun _ _ hx => by simp at hx,
    fun _ hx => by simp at hx⟩

/-- In every run over any number of trees, they stay red-black and apart, although the nodes that
are offered may be linked already: `RB_EMPTY_NODE` tells, of every node that was once cleared,
whether it is in no tree, and there the steps end. -/
theorem empty_nodes_in_every_run (h₀ : ∀ r, m.rbNode r = none)
    (h : Reachable move ⟨m, fun _ => [], []⟩ s) :
    (∀ r, ∃ t, RedBlackTree s.memory r (s.live r) t) ∧
    (∀ r r' x, x ∈ s.live r → x ∈ s.live r' → r = r') ∧
    (∀ x ∈ s.known, ∃ b, (rbEmptyNode (some x)).run s.memory = .ok (b, s.memory) ∧
      (b = true ↔ ∀ r, x ∉ s.live r) ∧
      (b = true → ∀ fuel, (rbNext fuel (some x)).run s.memory = .ok (none, s.memory) ∧
        (rbPrev fuel (some x)).run s.memory = .ok (none, s.memory))) ∧
    ∀ mv fuel, mv.Legal s → mv.load s < fuel → ∃ s', move s (mv, fuel) = some s' := by
  have htidy : Tidy s := h.invariant (P := Tidy) (tidy_start h₀) fun hs hmove => tidy_of_move hs hmove
  refine ⟨htidy.trees, htidy.apart, fun x hx => ⟨_, run_rbEmptyNode_word s.memory x, ?_, ?_⟩, ?_⟩
  · rw [decide_eq_true_iff]
    exact htidy.empty_iff hx
  · intro hempty fuel
    rw [rbNext, rbPrev, StateT.run_bind, StateT.run_bind, run_rbEmptyNode_word, hempty]
    exact ⟨rfl, rfl⟩
  · intro mv fuel hlegal hfuel
    obtain ⟨s', hs', -⟩ := htidy.legal hlegal hfuel
    exact ⟨s', hs'⟩

end Tidy

/-- A node that is linked is offered to a second tree, erased, and offered again. -/
theorem offered_twice :
    ∃ s : Forest Address (BitVec 64) Bool, s.live true = [⟨8#64, by decide⟩] ∧ s.live false = [] ∧
      ∃ t, RedBlackTree s.memory true (s.live true) t := by
  have hr := Reachable.get move
    (⟨⟨fun _ => 0#64, fun _ => none, fun _ => none, fun _ => none⟩, fun _ => [], []⟩ :
      Forest Address (BitVec 64) Bool)
    [(.clear ⟨8#64, by decide⟩, 0),
      (.insert false ⟨8#64, by decide⟩ none (.rbNode false), 1),
      (.insert true ⟨8#64, by decide⟩ none (.rbNode true), 1),
      (.erase false ⟨8#64, by decide⟩, 1),
      (.insert true ⟨8#64, by decide⟩ none (.rbNode true), 1)] rfl
  exact ⟨_, rfl, rfl, (empty_nodes_in_every_run (fun _ => rfl) hr).1 true⟩

end CommonProject.RBTree
