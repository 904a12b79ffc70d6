import CommonProject.Foundations.Deficit
import CommonProject.RBTree.Height
import CommonProject.RBTree.Safety

/-! What `__rb_erase_augmented` hands over to `____rb_erase_color`, and what that holds at the head of
every turn. -/
namespace CommonProject.RBTree
open Foundations Foundations.RedBlack Foundations.RedBlack.ColorTree
variable {α W ρ : Type}

/-- The nodes passed on a way down along the links to NULL, with the sides taken. -/
inductive Route (m : Memory α W ρ) : Option α → List (Dir × α) → Prop
  | null : Route m none []
  | step (d : Dir) {x : α} {path : List (Dir × α)} : Route m (m.child d x) path →
      Route m (some x) ((d, x) :: path)

variable [Word α W]

/-- All red-black rules hold but that the routes through one child of `parent`, which is `node`, are
exactly one black node shorter than all others. -/
structure OneShort [DecidableEq α] (m : Memory α W ρ) (root : ρ) (t : ColorTree α) (node : Option α) (parent : α)
    (d : Dir) : Prop where
  linked : At m root [] t
  parent_mem : parent ∈ t.toList
  child_eq : m.child d parent = node
  sibling : ∃ y, m.child d.flip parent = some y ∧ node ≠ some y
  node_black : ∀ x ∈ node, isBlackIn m x = true ∧ Word.parent (m.rbParentColor x) = some parent
  short : ∃ N, ∀ path, Route m (m.rbNode root) path →
    path.countP (fun n => isBlackIn m n.2) = if (d, parent) ∈ path then N else N + 1
  root_black : ∀ x ∈ m.rbNode root, isBlackIn m x = true
  red_rule : ∀ x ∈ t.toList, isBlackIn m x = false → ∀ d', ∀ y ∈ m.child d' x, isBlackIn m y = true

section Routes
variable {m : Memory α W ρ} {root : ρ} {p : Option α} {t : ColorTree α} {path : List (Dir × α)}
  {c : Color} {x : α} {d : Dir} {ctx : List (Frame α)} {n k : Nat}

/-- The routes in memory are the ways down the tree. -/
private theorem Rep.exists_way (h : Rep m p t) (hr : Route m t.root path) :
    ∃ q, Way t q ∧ path = q.map (fun n => (n.1, n.2.2)) ∧
      ∀ n ∈ q, isBlackIn m n.2.2 = decide (n.2.1 = .black) := by
  induction t generalizing p path with
  | nil =>
    cases hr
    exact ⟨[], .nil, rfl, by simp⟩
  | node c l x r ihl ihr =>
    obtain ⟨hw, hl, hr', hrl, hrr⟩ := h
    have hx : isBlackIn m x = decide (c = .black) := by rw [isBlackIn, hw, Word.color_pack]
    cases hr with
    | step d hr =>
      cases d with
      | left =>
        rw [Memory.child, hl] at hr
        obtain ⟨q, hq, rfl, hcol⟩ := ihl hrl hr
        exact ⟨_, .left hq, rfl, List.forall_mem_cons.mpr ⟨hx, hcol⟩⟩
      | right =>
        rw [Memory.child, hr'] at hr
        obtain ⟨q, hq, rfl, hcol⟩ := ihr hrr hr
        exact ⟨_, .right hq, rfl, List.forall_mem_cons.mpr ⟨hx, hcol⟩⟩

/-- A tree that is short at one place is so in memory. -/
private theorem Rep.route_short [DecidableEq α] (h : Rep m p t) (hs : Short t d x k)
    (hr : Route m t.root path) :
    path.countP (fun n => isBlackIn m n.2) = if (d, x) ∈ path then k else k + 1 := by
  obtain ⟨q, hq, rfl, hcol⟩ := h.exists_way hr
  have hcount : (q.map fun n => (n.1, n.2.2)).countP (fun n => isBlackIn m n.2) = blackCount q := by
    rw [List.countP_map]
    exact List.countP_congr fun n hn => by rw [Function.comp_apply, hcol n hn]
  have hpass : (d, x) ∈ (q.map fun n => (n.1, n.2.2)) ↔ Passes q d x := by
    simp only [Passes, List.mem_map, Prod.mk.injEq, Prod.exists]
    constructor
    · rintro ⟨_, c, _, hn, rfl, rfl⟩
      exact ⟨c, hn⟩
    · rintro ⟨c, hn⟩
      exact ⟨_, c, _, hn, rfl, rfl⟩
  rw [hcount]
  split
  case isTrue hx => exact (hs q hq).1 (hpass.mp hx)
  case isFalse hx => exact (hs q hq).2 fun hp => hx (hpass.mpr hp)

private theorem Rep.isBlackIn_root (h : Rep m p t) (hx : t.root = some x) :
    isBlackIn m x = decide (t.color = .black) := by
  cases t with
  | nil => cases hx
  | node c l y r =>
    cases hx
    rw [isBlackIn, h.1, Word.color_pack]
    rfl

private theorem Rep.red_rule (h : Rep m p t) (hr : RedRule t) :
    ∀ x ∈ t.toList, isBlackIn m x = false → ∀ d, ∀ y ∈ m.child d x, isBlackIn m y = true := by
  induction t generalizing p with
  | nil => simp [toList]
  | node c l x r ihl ihr =>
    obtain ⟨hw, hl, hright, hrl, hrr⟩ := h
    obtain ⟨hc, hredl, hredr⟩ := hr
    intro y hy hred d z hz
    rw [toList, List.mem_append, List.mem_cons] at hy
    rcases hy with hy | rfl | hy
    · exact ihl hrl hredl y hy hred d z hz
    · have hcol : c = .red := by
        rw [isBlackIn, hw, Word.color_pack] at hred
        cases c
        · rfl
        · cases hred
      obtain ⟨hcl, hcr⟩ := hc hcol
      cases d with
      | left => rw [hrl.isBlackIn_root (hl.symm.trans hz), hcl]; rfl
      | right => rw [hrr.isBlackIn_root (hright.symm.trans hz), hcr]; rfl
    · exact ihr hrr hredr y hy hred d z hz

omit [Word α W] in
private theorem ne_of_not_mem_around (h : x ∉ around ctx) :
    ∀ f ∈ ctx, f.value ≠ x ∧ x ∉ f.sibling.toList := by
  induction ctx with
  | nil => simp
  | cons f ctx ih =>
    simp only [around, List.cons_append, List.mem_cons, List.mem_append, not_or] at h
    exact List.forall_mem_cons.mpr ⟨⟨Ne.symm h.1, h.2.1⟩, ih h.2.2⟩

end Routes

section Heads
variable [DecidableEq α] {m : Memory α W ρ} {root : ρ} {ctx : List (Frame α)} {t : ColorTree α}

/-- What the loop relies on is what its comment says. -/
private theorem EraseHead.oneShort (h : EraseHead m root ctx t) :
    ∃ parent d, above ctx = some parent ∧ OneShort m root (plug ctx t) t.root parent d := by
  obtain ⟨hat, ⟨p, n, ha, ht⟩, hne⟩ := h
  cases ctx with
  | nil => exact absurd rfl hne
  | cons f ctx =>
    have hplug := at_plug.mp hat
    have hnd := hat.nodup
    have hlink := hat.link
    rw [read_slot_cons] at hlink
    simp only [nodup_plug, around, List.cons_append, List.nodup_cons, List.mem_append,
      List.disjoint_cons_right, not_or] at hnd
    obtain ⟨-, ⟨⟨hsib, hctx⟩, -⟩, -, hdisj⟩ := hnd
    obtain ⟨y, hy⟩ := ha.sibling_root
    obtain ⟨N, hshort⟩ := short_around ha ht hsib (ne_of_not_mem_around hctx)
    obtain ⟨hred, hblack⟩ := redRule_plug ha ht.redRule fun _ => ht.color_eq
    refine ⟨f.value, f.dir, rfl, hplug, ?_, hlink, ⟨y, hat.repCtx.2.1.trans hy, ?_⟩, ?_, ⟨N, ?_⟩, ?_,
      hplug.rep.red_rule hred⟩
    · exact mem_plug.mpr (.inr (.head _))
    · exact fun ht => hdisj (root_mem ht) (List.mem_append_left _ (root_mem hy))
    · intro x hx
      refine ⟨by rw [hat.rep.isBlackIn_root hx, ht.color_eq]; rfl, ?_⟩
      cases t with
      | nil => cases hx
      | node c l v r =>
        cases hx
        rw [hat.rep.1, Word.parent_pack]
        rfl
    · intro path hpath
      rw [show m.rbNode root = _ from hplug.link] at hpath
      exact hplug.rep.route_short hshort hpath
    · intro x hx
      rw [show m.rbNode root = _ from hplug.link] at hx
      rw [hplug.rep.isBlackIn_root hx, hblack]
      rfl

end Heads

section Erasure
variable [DecidableEq α] [DecidableEq ρ] {m : Memory α W ρ} {root : ρ} {t : ColorTree α}
  {live : List α} {x : α} {fuel : Nat}

/-- A head of the loop, on the nodes `nodes` in order: its comment holds, and it has no node only
at the start. -/
def GoodHead (root : ρ) (nodes : List α) (start h : Head α W ρ) : Prop :=
  ∃ t parent d, h.parent = some parent ∧ t.toList = nodes ∧
    OneShort h.memory root t h.node parent d ∧ (h.node = none → h = start)

/-- One turn of the loop goes on at a node, among the nodes there were. -/
private theorem EraseHead.next {ctx : List (Frame α)} {a b : Head α W ρ} {turn : Unit}
    (hs : EraseHead a.memory root ctx t) (hnode : a.node = t.root) (hparent : a.parent = above ctx)
    (hstep : repeatTurn (fun node parent => rbEraseColorTurn node parent root) a turn = some b) :
    ∃ ctx' t', EraseHead b.memory root ctx' t' ∧ b.node = t'.root ∧ b.parent = above ctx' ∧
      (plug ctx' t').toList = (plug ctx t).toList ∧ b.node ≠ none := by
  rw [repeatTurn_eq_some, hnode, hparent] at hstep
  rcases run_rbEraseColorTurn hs with ⟨m', hrun, -⟩ |
    ⟨m', ctx', t', hrun, -, hhead, -, hup, hfix⟩
  · cases hstep.symm.trans hrun
  · have heq := Prod.mk.inj (Except.ok.inj (hstep.symm.trans hrun))
    have hturn := Prod.mk.inj (Option.some.inj heq.1)
    refine ⟨ctx', t', heq.2 ▸ hhead, hturn.1, hturn.2, ?_, fun hnone => ?_⟩
    · rw [← toList_eraseFix, ← hfix, toList_eraseFix]
    · obtain ⟨parent, d, hpar, -⟩ := hs.oneShort
      rw [hturn.1, hup, hpar] at hnone
      cases hnone

/-- The loop's turns, from one head to the next. -/
private theorem goodHead_reachable {ctx : List (Frame α)} {start h : Head α W ρ}
    (hs : EraseHead start.memory root ctx t) (hnode : start.node = t.root)
    (hparent : start.parent = above ctx)
    (hr : Reachable (repeatTurn fun node parent => rbEraseColorTurn node parent root) start h) :
    GoodHead root (plug ctx t).toList start h := by
  obtain ⟨ctx', t', hhead, hn, hp, hlist, hnone⟩ := hr.invariant
    (P := fun h => ∃ ctx' t', EraseHead h.memory root ctx' t' ∧ h.node = t'.root ∧
      h.parent = above ctx' ∧ (plug ctx' t').toList = (plug ctx t).toList ∧
      (h.node = none → h = start))
    ⟨ctx, t, hs, hnode, hparent, rfl, fun _ => rfl⟩
    fun ⟨ctx', t', hhead, hn, hp, hlist, _⟩ hstep => by
      obtain ⟨ctx'', t'', hhead', hn', hp', hlist', hne⟩ := hhead.next hn hp hstep
      exact ⟨ctx'', t'', hhead', hn', hp', hlist'.trans hlist, fun hnone => absurd hnone hne⟩
  obtain ⟨parent, d, hpar, hdef⟩ := hhead.oneShort
  exact ⟨plug ctx' t', parent, d, hp.trans hpar, hlist, hn ▸ hdef, hnone⟩

/-- `__rb_erase_augmented` leaves a red-black tree without the node and returns NULL, or it returns
the node with an empty child slot that is one black node short; and the comment of the loop holds at
the head of each of its turns. -/
theorem erase_hands_over (h : RedBlackTree m root live t) (hx : x ∈ live) (hf : live.length < fuel) :
    ∃ rebalance m₁, (rbEraseAugmented fuel (some x) root).run m = .ok (rebalance, m₁) ∧
      (rebalance = none → ∃ t', RedBlackTree m₁ root (live.erase x) t' ∧
        t'.toList = t.toList.erase x) ∧
      ∀ parent, rebalance = some parent →
        (∃ t' d, OneShort m₁ root t' none parent d ∧ t'.toList = t.toList.erase x) ∧
        ∀ head, Reachable (repeatTurn fun node parent => rbEraseColorTurn node parent root)
          ⟨none, rebalance, m₁⟩ head →
            GoodHead root (t.toList.erase x) ⟨none, rebalance, m₁⟩ head := by
  obtain ⟨rebalance, m₁, hrun, ⟨rfl, t', ht', hlist⟩ | ⟨ctx, rfl, hhead, hlist⟩⟩ :=
    erase_begins h hx hf.le
  · exact ⟨none, m₁, hrun, fun _ => ⟨t', ht', hlist⟩, nofun⟩
  · obtain ⟨q, d, hq, hshort⟩ := hhead.oneShort
    refine ⟨above ctx, m₁, hrun, fun hnone => ?_, fun parent hparent => ?_⟩
    · cases hq.symm.trans hnone
    · obtain rfl : q = parent := Option.some.inj (hq.symm.trans hparent)
      refine ⟨⟨_, d, hshort, hlist⟩, fun head hr => ?_⟩
      rw [← hlist]
      exact goodHead_reachable hhead rfl rfl hr

end Erasure

def blackNodes : Memory Address (BitVec 64) Unit where
  rbParentColor x := if x.1 = 48#64 then 1#64 else 49#64
  rbRight x := if x.1 = 48#64 then (nodeAt 96#64).join else none
  rbLeft x := if x.1 = 48#64 then (nodeAt 8#64).join else none
  rbNode _ := (nodeAt 48#64).join

private theorem blackNodes_redBlackTree : RedBlackTree blackNodes ()
    [⟨8#64, by decide⟩, ⟨48#64, by decide⟩, ⟨96#64, by decide⟩]
    (.node .black (.node .black .nil ⟨8#64, by decide⟩ .nil) ⟨48#64, by decide⟩
      (.node .black .nil ⟨96#64, by decide⟩ .nil)) where
  rbNode := rfl
  rep := ⟨rfl, rfl, rfl, ⟨rfl, rfl, rfl, trivial, trivial⟩, ⟨rfl, rfl, rfl, trivial, trivial⟩⟩
  nodup := by decide
  perm := .refl _
  balanced := ⟨2, .black (.black .nil .nil) (.black .nil .nil)⟩

theorem black_leaf_handed_over :
    ∃ m₁ : Memory Address (BitVec 64) Unit,
      (rbEraseAugmented 4 (some ⟨96#64, by decide⟩) ()).run blackNodes =
        .ok (some ⟨48#64, by decide⟩, m₁) ∧
      ∃ t d, OneShort m₁ () t none ⟨48#64, by decide⟩ d := by
  have hfuel : 3 < 4 := by decide
  obtain ⟨rebalance, m₁, hrun, -, hsome⟩ :=
    erase_hands_over blackNodes_redBlackTree (.tail _ (.tail _ (.head _))) hfuel
  have hfirst := congrArg (fun r => r.toOption.map Prod.fst) hrun
  have hback : some (some ⟨48#64, by decide⟩) = some rebalance := hfirst
  obtain rfl := Option.some.inj hback
  obtain ⟨t', d, hshort, -⟩ := (hsome _ rfl).1
  exact ⟨m₁, hrun, t', d, hshort⟩

end CommonProject.RBTree
