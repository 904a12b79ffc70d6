import CommonProject.Foundations.SearchTree
import CommonProject.RBTree.Runs

/-! The tree as its clients use it: elements with keys, in a sorted order that is stable. -/
namespace CommonProject.RBTree
open Foundations Foundations.RedBlack Foundations.RedBlack.ColorTree
variable {α W ρ : Type}

/-- The descent of `insert` to the place for a key. -/
def insertLoop (keys : α → Int) (key : Int) :
    Nat → Slot α ρ → Option α → Prog α W ρ (Option α × Slot α ρ)
  | 0, _, _ => throw .outOfFuel
  | fuel + 1, new, parent => do
    match (← get).read new with
    | none => return (parent, new)
    | some tmp =>
      if key < keys tmp then insertLoop keys key fuel (.rbLeft tmp) (some tmp)
      else insertLoop keys key fuel (.rbRight tmp) (some tmp)

def findLoop (keys : α → Int) (key : Int) : Nat → Option α → Prog α W ρ (Option α)
  | 0, _ => throw .outOfFuel
  | fuel + 1, n => do
    match n with
    | none => return none
    | some tmp =>
      if key = keys tmp then return some tmp
      else if key < keys tmp then
        let n ← loadLeft n
        findLoop keys key fuel n
      else
        let n ← loadRight n
        findLoop keys key fuel n

def find (keys : α → Int) (fuel : Nat) (key : Int) (root : ρ) : Prog α W ρ (Option α) := do
  findLoop keys key fuel (← loadNode root)

section Programs
variable [DecidableEq α] [DecidableEq ρ] [Word α W]

def insert (keys : α → Int) (fuel : Nat) (e : α) (root : ρ) : Prog α W ρ Unit := do
  let (parent, new) ← insertLoop keys (keys e) fuel (.rbNode root) none
  rbInsert fuel (some e) parent new root

def erase (fuel : Nat) (e : α) (root : ρ) : Prog α W ρ Unit :=
  rbErase fuel (some e) root

end Programs

/-- An element gets its key before it is inserted, and keeps it while it is live. -/
structure Elements (α W ρ : Type) extends State α W ρ where
  keys : α → Int

inductive Request (α : Type)
  | insert (e : α) (key : Int)
  | erase (e : α)
  deriving DecidableEq, Repr

namespace Request

def Legal (live : List α) : Request α → Prop
  | insert e _ => e ∉ live
  | erase e => e ∈ live

variable [DecidableEq α]

instance (live : List α) (req : Request α) : Decidable (req.Legal live) :=
  match req with
  | insert e _ => inferInstanceAs (Decidable (e ∉ live))
  | erase e => inferInstanceAs (Decidable (e ∈ live))

def after (live : List α) : Request α → List α
  | insert e _ => live ++ [e]
  | erase e => live.erase e

def rekey (keys : α → Int) : Request α → α → Int
  | insert e key => Function.update keys e key
  | erase _ => keys

def program [DecidableEq ρ] [Word α W] (keys : α → Int) (root : ρ) (fuel : Nat) :
    Request α → Prog α W ρ Unit
  | insert e _ => RBTree.insert keys fuel e root
  | erase e => RBTree.erase fuel e root

end Request

variable [DecidableEq α] [DecidableEq ρ] [Word α W]

/-- One request, its loops cut off after so many turns. -/
def serve (root : ρ) (s : Elements α W ρ) (call : Request α × Nat) : Option (Elements α W ρ) :=
  if call.1.Legal s.live then
    (outcome (call.1.program (call.1.rekey s.keys) root call.2) s.memory).map fun m =>
      ⟨⟨m, call.1.after s.live⟩, call.1.rekey s.keys⟩
  else none

def Inorder (m : Memory α W ρ) (root : ρ) (l : List α) : Prop :=
  ∃ t, m.rbNode root = t.root ∧ Rep m none t ∧ t.toList = l

section Descents
variable {m : Memory α W ρ} {root : ρ} {t : ColorTree α} {ctx : List (Frame α)}
  {p : Option α}

omit [DecidableEq α] [DecidableEq ρ] in
/-- The descent of `insert` reads only, and ends at the place for the key. -/
theorem run_insertLoop (keys : α → Int) (key : Int) (fuel : Nat) (h : At m root ctx t)
    (hfuel : (place keys key t ctx).length < fuel + ctx.length) :
    (insertLoop keys key fuel (slot root ctx) (above ctx)).run m =
      (pure ((above (place keys key t ctx), slot root (place keys key t ctx)), m) :
        Except Fault _) := by
  induction t generalizing ctx fuel with
  | nil =>
    obtain ⟨k, rfl⟩ := Nat.exists_eq_add_one_of_ne_zero (n := fuel) (by
      rw [place] at hfuel
      omega)
    have hlink : m.read (slot root ctx) = none := h.link
    simp [insertLoop, place, hlink]
  | node c l x r ihl ihr =>
    obtain ⟨k, rfl⟩ := Nat.exists_eq_add_one_of_ne_zero (n := fuel) (by
      have hlen := length_place keys key (.node c l x r) ctx
      omega)
    have hlink : m.read (slot root ctx) = some x := h.link
    have hleft : At m root (⟨.left, c, x, r⟩ :: ctx) l := at_fill.mpr h
    have hright : At m root (⟨.right, c, x, l⟩ :: ctx) r := at_fill.mpr h
    rw [place] at hfuel ⊢
    simp only [insertLoop, StateT.run_bind, StateT.run_get, pure_bind, hlink]
    split at hfuel
    case isTrue hk =>
      rw [if_pos hk, if_pos hk]
      exact ihl k hleft (by rw [List.length_cons]; omega)
    case isFalse hk =>
      rw [if_neg hk, if_neg hk]
      exact ihr k hright (by rw [List.length_cons]; omega)

omit [DecidableEq α] [DecidableEq ρ] in
private theorem run_findLoop (keys : α → Int) (key : Int) (fuel : Nat) (h : Rep m p t)
    (hfuel : t.toList.length < fuel) :
    (findLoop keys key fuel t.root).run m = (pure (search keys key t, m) : Except Fault _) := by
  induction t generalizing p fuel with
  | nil =>
    obtain ⟨k, rfl⟩ := Nat.exists_eq_add_one_of_ne_zero (Nat.ne_zero_of_lt hfuel)
    rfl
  | node c l x r ihl ihr =>
    obtain ⟨k, rfl⟩ := Nat.exists_eq_add_one_of_ne_zero (Nat.ne_zero_of_lt hfuel)
    obtain ⟨-, hl, hr, hrl, hrr⟩ := h
    simp only [toList, List.length_append, List.length_cons] at hfuel
    simp only [findLoop, root_node, search]
    split
    · rfl
    · split
      · rw [StateT.run_bind, run_loadLeft, pure_bind, hl]
        exact ihl k hrl (by omega)
      · rw [StateT.run_bind, run_loadRight, pure_bind, hr]
        exact ihr k hrr (by omega)

end Descents
section Requests
variable {root : ρ} {s s' : Elements α W ρ} {t : ColorTree α} {req : Request α} {live : List α}

private theorem serve_eq_some {call : Request α × Nat} : serve root s call = some s' ↔
    call.1.Legal s.live ∧
      ∃ m, (call.1.program (call.1.rekey s.keys) root call.2).run s.memory = .ok ((), m) ∧
        ⟨⟨m, call.1.after s.live⟩, call.1.rekey s.keys⟩ = s' := by
  rw [serve, Option.ite_none_right_eq_some, Option.map_eq_some_iff]
  simp only [outcome_eq_some]

def Served (root : ρ) (s s' : Elements α W ρ) : Request α → Prop
  | .insert e key => ∃ b a, Inorder s.memory root (b ++ a) ∧
      Inorder s'.memory root (b ++ e :: a) ∧ (∀ x ∈ b, s.keys x ≤ key) ∧ ∀ x ∈ a, key < s.keys x
  | .erase e => ∃ l, Inorder s.memory root l ∧ Inorder s'.memory root (l.erase e)

def Sound (root : ρ) (s : Elements α W ρ) : Prop :=
  ∃ t, RedBlackTree s.memory root s.live t ∧ StableSort s.keys t.toList s.live

omit [DecidableEq α] [DecidableEq ρ] in
theorem RedBlackTree.inorder {m : Memory α W ρ} (h : RedBlackTree m root live t) :
    Inorder m root t.toList := ⟨t, h.rbNode, h.rep, rfl⟩

private theorem serve_insert {e : α} {key : Int} (fuel : Nat) (h : Sound root s) (he : e ∉ s.live)
    (hfuel : s.live.length < fuel) :
    ∃ s', serve root s (.insert e key, fuel) = some s' ∧ Served root s s' (.insert e key) ∧
      Sound root s' := by
  obtain ⟨t, htree, hsort⟩ := h
  have hkeys : ∀ y ∈ t.toList, Function.update s.keys e key y = s.keys y := by
    intro y hy
    refine Function.update_of_ne ?_ ..
    rintro rfl
    exact he (htree.perm.mem_iff.mp hy)
  have hsort' : StableSort (Function.update s.keys e key) t.toList s.live :=
    hsort.congr fun y hy => hkeys y (htree.perm.mem_iff.mpr hy)
  obtain ⟨hb, ha⟩ := place_spec key [] hsort'.sorted nofun nofun
  have hplug := plug_place (Function.update s.keys e key) key t []
  have hloop : (place (Function.update s.keys e key) key t []).length < fuel →
      (insertLoop (Function.update s.keys e key) key fuel (.rbNode root) none).run s.memory = _ :=
    run_insertLoop _ key fuel htree.toAt
  generalize place (Function.update s.keys e key) key t [] = ctx at hb ha hplug hloop
  obtain rfl : plug ctx .nil = t := hplug
  have hlen := length_le_toList_plug ctx (.nil : ColorTree α)
  rw [htree.perm.length_eq] at hlen
  obtain ⟨m', hrun, htree'⟩ := insert_redBlackTree htree he hfuel
  have hlist : (plug ctx .nil).toList = before ctx ++ after ctx := by
    simp [toList_plug, toList]
  rw [hlist] at hsort' hkeys
  have hself : Function.update s.keys e key e = key := Function.update_self ..
  refine ⟨_, serve_eq_some.mpr ⟨he, m', ?_, rfl⟩, ⟨before ctx, after ctx, hlist ▸ htree.inorder,
    toList_insert ctx e ▸ htree'.inorder, ?_, ?_⟩, _, htree', ?_⟩
  · simp only [Request.program, Request.rekey, insert, hself]
    rw [StateT.run_bind, hloop (hlen.trans_lt hfuel), pure_bind]
    exact hrun
  · intro x hx
    rw [← hkeys x (List.mem_append_left _ hx)]
    exact hb x hx
  · intro x hx
    rw [← hkeys x (List.mem_append_right _ hx)]
    exact ha x hx
  · rw [toList_insert]
    exact hsort'.insert (hself.symm ▸ hb) (hself.symm ▸ ha)

private theorem serve_erase {e : α} (fuel : Nat) (h : Sound root s) (he : e ∈ s.live)
    (hfuel : s.live.length < fuel) :
    ∃ s', serve root s (.erase e, fuel) = some s' ∧ Served root s s' (.erase e) ∧
      Sound root s' := by
  obtain ⟨t, htree, hsort⟩ := h
  obtain ⟨ctx, c, l, r, rfl⟩ := exists_plug (htree.perm.mem_iff.mpr he)
  obtain ⟨m', hrun, htree'⟩ := erase_redBlackTree htree hfuel.le
  have hlist := toList_eraseNode_eq_erase htree.nodup
  refine ⟨_, serve_eq_some.mpr ⟨he, m', hrun, rfl⟩, ⟨_, htree.inorder, ?_⟩, _, htree', ?_⟩
  · exact hlist ▸ htree'.inorder
  · exact hlist ▸ hsort.erase htree.nodup e

private theorem legal_serve (fuel : Nat) (h : Sound root s) (hlegal : req.Legal s.live)
    (hfuel : s.live.length < fuel) :
    ∃ s', serve root s (req, fuel) = some s' ∧ Served root s s' req ∧ Sound root s' := by
  cases req with
  | insert e key => exact serve_insert fuel h hlegal hfuel
  | erase e => exact serve_erase fuel h hlegal hfuel

omit [DecidableEq α] [DecidableEq ρ] [Word α W] in
private theorem settled_insertLoop (keys : α → Int) (key : Int) (new : Slot α ρ)
    (parent : Option α) : Settled fun k => (insertLoop keys key k new parent : Prog α W ρ _) := by
  refine Settled.loop (W := W) (F := fun k a => insertLoop keys key k a.1 a.2)
    (fun a => do return (← get).read a.1) (fun k a b => b.elim (pure (a.2, a.1)) fun tmp =>
      if key < keys tmp then insertLoop keys key k (.rbLeft tmp) (some tmp)
      else insertLoop keys key k (.rbRight tmp) (some tmp)) (fun _ => rfl) (fun k a => ?_) ?_
    (new, parent)
  · rw [insertLoop, bind_assoc]
    congr 1
    funext m
    rw [pure_bind]
    cases m.read a.1 <;> rfl
  · intro a b
    cases b with
    | none => exact .inl ⟨_, fun _ => rfl⟩
    | some tmp =>
      by_cases hk : key < keys tmp
      · exact .inr ⟨(.rbLeft tmp, some tmp), fun _ => if_pos hk⟩
      · exact .inr ⟨(.rbRight tmp, some tmp), fun _ => if_neg hk⟩

theorem settled_request (req : Request α) (keys : α → Int) (root : ρ) :
    Settled fun k => (req.program keys root k : Prog α W ρ Unit) := by
  cases req with
  | insert e key => exact .bind (settled_insertLoop ..) fun _ => settled_rbInsert ..
  | erase e => exact settled_rbErase ..

/-- Every step does what the request says, whatever its bound on the turns was. -/
private theorem served_of_serve {call : Request α × Nat} (h : Sound root s)
    (hserve : serve root s call = some s') : Served root s s' call.1 ∧ Sound root s' := by
  obtain ⟨hlegal, m, hrun, rfl⟩ := serve_eq_some.mp hserve
  obtain ⟨s', hs', hserved, hsound⟩ :=
    legal_serve (s.live.length + call.2 + 1) h hlegal (by omega)
  obtain ⟨-, m', hrun', rfl⟩ := serve_eq_some.mp hs'
  have hmore := (settled_request call.1 (call.1.rekey s.keys) root).stable
    (by omega : call.2 ≤ s.live.length + call.2 + 1) hrun
  obtain rfl : m' = m := congrArg Prod.snd (Except.ok.inj (hrun'.symm.trans hmore))
  exact ⟨hserved, hsound⟩

omit [DecidableEq α] [DecidableEq ρ] in
/-- Looking for a key changes nothing and misses nothing. -/
private theorem run_find {key : Int} {fuel : Nat} (h : Sound root s)
    (hfuel : s.live.length < fuel) :
    ∃ r, (find s.keys fuel key root).run s.memory = .ok (r, s.memory) ∧
      (∀ e, r = some e → e ∈ s.live ∧ s.keys e = key) ∧
      (r = none → ∀ e ∈ s.live, s.keys e ≠ key) := by
  obtain ⟨t, htree, hsort⟩ := h
  refine ⟨search s.keys key t, ?_, fun e he => ?_, fun hnone e he => ?_⟩
  · have hloop := run_findLoop s.keys key fuel htree.rep (htree.perm.length_eq.trans_lt hfuel)
    rw [← htree.rbNode] at hloop
    exact hloop
  · obtain ⟨hmem, hkey⟩ := search_eq_some he
    exact ⟨htree.perm.mem_iff.mp hmem, hkey⟩
  · exact search_eq_none hsort.sorted hnone (htree.perm.mem_iff.mpr he)

omit [DecidableEq α] [DecidableEq ρ] in
private theorem Inorder.unique {m : Memory α W ρ} {l l' : List α} (h : Inorder m root l)
    (h' : Inorder m root l') : l = l' := by
  obtain ⟨t, hroot, hrep, rfl⟩ := h
  obtain ⟨t', hroot', hrep', rfl⟩ := h'
  rw [rep_unique hrep hrep' (hroot.symm.trans hroot')]

/-- In every run of requests from `RB_ROOT`, the tree in order is the live elements sorted by key,
equal keys in the order of their insertion. Legal requests come to an end, do to the sequence what
they say, and `find` finds an element with the key if there is one. -/
theorem sequence_in_every_run {m : Memory α W ρ} {keys : α → Int} (h₀ : m.rbNode root = none)
    (h : Reachable (serve root) ⟨⟨m, []⟩, keys⟩ s) :
    (∃ l, (∀ l', Inorder s.memory root l' ↔ l' = l) ∧ StableSort s.keys l s.live) ∧
    (∀ req fuel, req.Legal s.live → s.live.length < fuel →
      ∃ s', serve root s (req, fuel) = some s') ∧
    (∀ call s', serve root s call = some s' → Served root s s' call.1) ∧
    ∀ key fuel, s.live.length < fuel →
      ∃ r, (find s.keys fuel key root).run s.memory = .ok (r, s.memory) ∧
        (∀ e, r = some e → e ∈ s.live ∧ s.keys e = key) ∧
        (r = none → ∀ e ∈ s.live, s.keys e ≠ key) := by
  have hsound : Sound root s := h.invariant (P := Sound root)
    ⟨_, empty_redBlackTree h₀, .nil, .nil, fun _ => rfl⟩ fun hs hstep => (served_of_serve hs hstep).2
  refine ⟨?_, fun req fuel hlegal hfuel => ?_, fun call s' hstep => ?_, fun key fuel hfuel => ?_⟩
  · obtain ⟨t, htree, hsort⟩ := hsound
    refine ⟨t.toList, fun l' => ⟨fun hl => hl.unique htree.inorder, ?_⟩, hsort⟩
    rintro rfl
    exact htree.inorder
  · obtain ⟨s', hs', -⟩ := legal_serve fuel hsound hlegal hfuel
    exact ⟨s', hs'⟩
  · exact (served_of_serve hsound hstep).1
  · exact run_find hsound hfuel

/-- Two elements with one key and an element that comes before them. -/
theorem sequence_of_three :
    ∃ s : Elements Address (BitVec 64) Unit,
      (∃ l, (∀ l', Inorder s.memory () l' ↔ l' = l) ∧ StableSort s.keys l s.live) ∧
      s.live.map s.keys = [5, 5, 3] := by
  have hr := Reachable.get (serve ())
    (⟨⟨⟨fun _ => 0#64, fun _ => none, fun _ => none, fun _ => none⟩, []⟩, fun _ => 0⟩ :
      Elements Address (BitVec 64) Unit)
    [(.insert ⟨8#64, by decide⟩ 5, 1), (.insert ⟨48#64, by decide⟩ 5, 2),
      (.insert ⟨24#64, by decide⟩ 3, 3)] rfl
  exact ⟨_, (sequence_in_every_run rfl hr).1, rfl⟩

end Requests
end CommonProject.RBTree
