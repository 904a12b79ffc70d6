import CommonProject.RingList.Refinement

/-! The loops of `list.h` that are safe against removal of the entry they are at. -/
namespace CommonProject.RingList
open Foundations CommonProject.RingList.Lists
variable {α κ : Type}

/-- A loop cursor: the `struct list_head` it points at or into, and the cursor at a given one. -/
structure Cursor (α κ : Type) where
  member : κ → α
  entry : α → κ
  member_entry : ∀ ptr, member (entry ptr) = ptr

def Cursor.pointer : Cursor α α := ⟨id, id, fun _ => rfl⟩

/-- `container_of`, for a member that is `offset` bytes into its structure. -/
def Cursor.containerOf (offset : BitVec 64) : Cursor (BitVec 64) (BitVec 64) :=
  ⟨(· + offset), (· - offset), fun ptr => BitVec.sub_add_cancel ptr offset⟩

/-- What a loop does: it reads a field of a `struct list_head`, or runs its body for an entry. -/
inductive Event (α : Type)
  | read (list : α)
  | visit (list : α)
  deriving DecidableEq, Repr

/-- The loop from the cursors `pos` and `n` on, `none` when `fuel` turns do not end it. -/
def safeLoop [DecidableEq α] (c : Cursor α κ) (field : Memory α → α → α)
    (body : κ → Memory α → Memory α) (head : α) :
    Nat → κ → κ → Memory α → Option (List (Event α) × Memory α)
  | 0, _, _, _ => none
  | fuel + 1, pos, n, m =>
    if c.member pos = head then some ([], m)
    else
      let m := body pos m
      let next := c.entry (field m (c.member n))
      (safeLoop c field body head fuel n next m).map fun r =>
        (.visit (c.member pos) :: .read (c.member n) :: r.1, r.2)

/-- All four loops: the cursors start at the first two entries, and `n` is fetched before the body
runs for `pos`. -/
def forEachSafe [DecidableEq α] (c : Cursor α κ) (field : Memory α → α → α)
    (body : κ → Memory α → Memory α) (head : α) (fuel : Nat) (m : Memory α) :
    Option (List (Event α) × Memory α) :=
  let pos := c.entry (field m head)
  let n := c.entry (field m (c.member pos))
  (safeLoop c field body head fuel pos n m).map fun r =>
    (.read head :: .read (c.member pos) :: r.1, r.2)

section Loops
variable [DecidableEq α]

def listForEachSafe (body : α → Memory α → Memory α) (head : α) (fuel : Nat) (m : Memory α) :
    Option (List (Event α) × Memory α) :=
  forEachSafe .pointer (fun m => m.next) body head fuel m

def listForEachPrevSafe (body : α → Memory α → Memory α) (head : α) (fuel : Nat) (m : Memory α) :
    Option (List (Event α) × Memory α) :=
  forEachSafe .pointer (fun m => m.prev) body head fuel m

def listForEachEntrySafe (c : Cursor α κ) (body : κ → Memory α → Memory α) (head : α) (fuel : Nat)
    (m : Memory α) : Option (List (Event α) × Memory α) :=
  forEachSafe c (fun m => m.next) body head fuel m

def listForEachEntrySafeReverse (c : Cursor α κ) (body : κ → Memory α → Memory α) (head : α)
    (fuel : Nat) (m : Memory α) : Option (List (Event α) × Memory α) :=
  forEachSafe c (fun m => m.prev) body head fuel m

/-- What becomes of an entry: it stays, or it is removed and then left alone, overwritten, or added
next to a place of another list. -/
inductive Fate (α : Type)
  | keep
  | leave
  | overwrite (next prev : α)
  | add (place : α)
  | addTail (place : α)
  deriving DecidableEq, Repr

namespace Fate

def keeps : Fate α → Bool
  | keep => true
  | _ => false

def adds : Fate α → Bool
  | add _ | addTail _ => true
  | _ => false

def run (m : Memory α) (e : α) : Fate α → Memory α
  | keep => m
  | leave => listDelInit m e
  | overwrite next prev => setPrev (setNext (listDelInit m e) e next) e prev
  | add place => listAdd (listDelInit m e) e place
  | addTail place => listAddTail (listDelInit m e) e place

/-- An entry that is added goes next to one of `places`. -/
def Into (places : α → Prop) : Fate α → Prop
  | add place | addTail place => places place
  | _ => True

end Fate

/-- Every entry added goes next to one of `places` or to an entry added before it. -/
def Allowed (fate : α → Fate α) : (α → Prop) → List α → Prop
  | _, [] => True
  | places, e :: todo => (fate e).Into places ∧
    Allowed fate (fun p => places p ∨ p = e ∧ (fate e).adds = true) todo

def fateBody (c : Cursor α κ) (fate : α → Fate α) (pos : κ) (m : Memory α) : Memory α :=
  (fate (c.member pos)).run m (c.member pos)

def visited (trace : List (Event α)) : List α :=
  trace.filterMap fun
    | .visit list => some list
    | .read _ => none

/-- No field of a removed entry is read after the body has run for it. -/
def ReadsNoRemoved (fate : α → Fate α) (trace : List (Event α)) : Prop :=
  trace.Pairwise fun a b => ∀ e, a = .visit e → (fate e).keeps = false → b ≠ .read e

end Loops

section Bodies
variable [DecidableEq α] {m : Memory α} {s : Lists α} {h e : α} {xs : List α}

omit [DecidableEq α] in
/-- The cell of an entry in no list is free for anything. -/
private theorem Holds.forget {m' : Memory α} (hm : Holds m s) (hf : s.FreeEntry e)
    (hn : ∀ a, a ≠ e → m'.next a = m.next a) (hp : ∀ a, a ≠ e → m'.prev a = m.prev a) :
    Holds m' (s.forget e) where
  ring {g ys} hs := by
    have hne : ∀ a ∈ g :: ys, a ≠ e := fun a ha hae => hf.not_mem hs (hae ▸ ha)
    exact (hm.ring hs).congr (fun a ha => hn a (hne a ha)) fun a ha => hp a (hne a ha)
  alone {a} hl := by
    rw [hn a hl.2, hp a hl.2]
    exact hm.alone hl.1

/-- What the body does to the list it is in, and which places of other lists there are then. -/
private theorem Holds.fate (hm : Holds m s) (hs : s.seq h = some xs) (he : e ∈ xs)
    {places : α → Prop}
    (hplaces : ∀ p, places p → s.Place p ∧ p ∉ h :: xs) {fate : Fate α} (hf : fate.Into places) :
    ∃ s' ys, Holds (fate.run m e) s' ∧ s'.seq h = some ys ∧
      ys = (if fate.keeps then xs else xs.filter (· ≠ e)) ∧
      ∀ p, (places p ∨ p = e ∧ fate.adds = true) → s'.Place p ∧ p ∉ h :: ys := by
  have hlinked : s.Linked e := ⟨h, xs, hs, he⟩
  have hnone := s.seq_none_of_entry (.inl hlinked)
  have hdel := hm.listDelInit (.inl hlinked)
  have hfree := s.remove_freeEntry e hnone
  have hseq : (s.remove e hnone).seq h = some (xs.filter (· ≠ e)) := by
    rw [remove_seq, hs, Option.map_some, (s.nodup hs).erase_eq_filter]
    simp only [ne_eq, decide_not]
    rfl
  have hout : ∀ p, p ∉ h :: xs → p ∉ h :: xs.filter (· ≠ e) := fun p hp hx =>
    hp (List.cons_subset_cons h (List.filter_subset_self xs) hx)
  have hrest : ∀ p, places p → (s.remove e hnone).Place p := fun p hp =>
    (hplaces p hp).1.remove hnone fun hpe =>
      (hplaces p hp).2 (hpe ▸ List.mem_cons_of_mem _ he)
  have hhe : e ∉ h :: xs.filter (· ≠ e) := by
    have hne : e ≠ h := fun heq => s.head_not_mem hs (heq ▸ he)
    simp [hne]
  have hno : ∀ p, places p → ¬ Owns p h (xs.filter (· ≠ e)) := fun p hp ho =>
    hout p (hplaces p hp).2 (owns_iff_mem.mp ho)
  cases fate with
  | keep =>
    refine ⟨s, xs, hm, hs, rfl, fun p hp => ?_⟩
    exact hplaces p (by simpa [Fate.adds] using hp)
  | leave =>
    refine ⟨_, _, hdel, hseq, rfl, fun p hp => ?_⟩
    have hp : places p := by simpa [Fate.adds] using hp
    exact ⟨hrest p hp, hout p (hplaces p hp).2⟩
  | overwrite next prev =>
    refine ⟨_, _, hdel.forget hfree (fun a ha => ?_) (fun a ha => ?_), hseq, rfl, fun p hp => ?_⟩
    · simp [Fate.run, setPrev, setNext, ha]
    · simp [Fate.run, setPrev, setNext, ha]
    · have hp : places p := by simpa [Fate.adds] using hp
      exact ⟨hrest p hp, hout p (hplaces p hp).2⟩
  | add place =>
    refine ⟨_, _, hdel.listAdd hfree (hrest place hf), ?_, rfl, ?_⟩
    · rw [addAfter_seq, hseq, Option.map_some, putAfter_other (hno place hf)]
      rfl
    · rintro p (hp | ⟨rfl, -⟩)
      · exact ⟨(hrest p hp).add hfree (putAfter_cases place e), hout p (hplaces p hp).2⟩
      · exact ⟨(hrest place hf).addAfter_new hfree, hhe⟩
  | addTail place =>
    refine ⟨_, _, hdel.listAddTail hfree (hrest place hf), ?_, rfl, ?_⟩
    · rw [addBefore_seq, hseq, Option.map_some, putBefore_other (hno place hf)]
      rfl
    · rintro p (hp | ⟨rfl, -⟩)
      · exact ⟨(hrest p hp).add hfree (putBefore_cases place e), hout p (hplaces p hp).2⟩
      · exact ⟨(hrest place hf).addBefore_new hfree, hhe⟩

end Bodies

inductive Direction
  | forward
  | backward

namespace Direction

def field : Direction → Memory α → α → α
  | forward, m => m.next
  | backward, m => m.prev

def order : Direction → List α → List α
  | forward, xs => xs
  | backward, xs => xs.reverse

theorem mem_order (d : Direction) {xs : List α} {a : α} : a ∈ d.order xs ↔ a ∈ xs := by
  cases d with
  | forward => exact Iff.rfl
  | backward => exact List.mem_reverse

private theorem filter_order (d : Direction) (p : α → Bool) (xs : List α) :
    (d.order xs).filter p = d.order (xs.filter p) := by
  cases d with
  | forward => rfl
  | backward => exact List.filter_reverse

private theorem order_injective (d : Direction) : Function.Injective (d.order (α := α)) := by
  cases d with
  | forward => exact fun _ _ h => h
  | backward => exact List.reverse_injective

private theorem nodup_order (d : Direction) {xs : List α} (hx : xs.Nodup) : (d.order xs).Nodup := by
  cases d with
  | forward => exact hx
  | backward => exact List.nodup_reverse.mpr hx

/-- A kept entry joins those before the rest, a removed one leaves the order. -/
private theorem order_after [DecidableEq α] (d : Direction) {e : α} {xs before todo : List α}
    (hxs : d.order xs = before ++ e :: todo) (hnd : (before ++ e :: todo).Nodup)
    (fate : α → Fate α) :
    ∃ before', d.order (if (fate e).keeps then xs else xs.filter (· ≠ e)) = before' ++ todo ∧
      before' ++ todo.filter (fun a => (fate a).keeps) =
        before ++ (e :: todo).filter fun a => (fate a).keeps := by
  cases hk : (fate e).keeps with
  | true => exact ⟨before ++ [e], by simp [hxs], by simp [hk]⟩
  | false =>
    refine ⟨before, ?_, by simp [hk]⟩
    have hb : ∀ a ∈ before, a ≠ e := fun a ha heq =>
      (List.nodup_append.mp hnd).2.2 a ha e (.head _) heq
    have ht : ∀ a ∈ todo, a ≠ e := fun a ha heq =>
      (List.nodup_cons.mp (List.nodup_append.mp hnd).2.1).1 (heq ▸ ha)
    rw [if_neg (by simp), ← d.filter_order, hxs, List.filter_append, List.filter_cons_of_neg (by simp),
      List.filter_eq_self.mpr (by simpa using hb), List.filter_eq_self.mpr (by simpa using ht)]

/-- The field of a cell of the ring leads to the next one in the order, or back to the head. -/
theorem field_of_split (d : Direction) {m : Memory α} {h a : α} {xs l r : List α}
    (hr : m.Ring h xs) (he : h :: d.order xs = l ++ a :: r) : d.field m a = r.head?.getD h := by
  have hj : d.field m a = (r ++ [h]).head (by simp) := by
    cases d with
    | forward => exact (hr.next_of_split he).1
    | backward => exact (hr.reversed.next_of_split he).1
  rw [hj]
  cases r <;> rfl

end Direction

section Loop
variable {s : Lists α} {h : α} {fate : α → Fate α}

/-- How a loop that meets `todo` ends: it visits these entries, reads nothing it removed, and
keeps what it met `before` and the kept ones among these. -/
def EndsWell (d : Direction) (h : α) (fate : α → Fate α) (before todo : List α)
    (run : Option (List (Event α) × Memory α)) : Prop :=
  ∃ trace m s zs, run = some (trace, m) ∧ visited trace = todo ∧ ReadsNoRemoved fate trace ∧
    (∀ e, .read e ∈ trace → e ∈ h :: todo) ∧ Holds m s ∧ s.seq h = some zs ∧
    d.order zs = before ++ todo.filter fun e => (fate e).keeps

private theorem first_mem (h : α) (todo : List α) : todo.head?.getD h ∈ h :: todo := by
  cases todo <;> simp

/-- A turn adds a visit and one read, of an entry that is still to come. -/
private theorem EndsWell.turn {d : Direction} {before before' todo : List α} {e : α}
    {run : Option (List (Event α) × Memory α)} (hw : EndsWell d h fate before' todo run)
    (hout : e ∉ h :: todo)
    (hkeep : before' ++ todo.filter (fun a => (fate a).keeps) =
      before ++ (e :: todo).filter fun a => (fate a).keeps) :
    EndsWell d h fate before (e :: todo)
      (run.map fun r => (.visit e :: .read (todo.head?.getD h) :: r.1, r.2)) := by
  obtain ⟨trace, m, s, zs, rfl, hvis, hreads, hin, hm, hs, hzs⟩ := hw
  have htodo : ∀ a ∈ h :: todo, a ∈ h :: e :: todo := fun a ha =>
    List.cons_subset_cons h (List.subset_cons_self e todo) ha
  refine ⟨_, m, s, zs, rfl, by simpa [visited] using hvis, ?_, ?_, hm, hs, hzs.trans hkeep⟩
  · refine List.pairwise_cons.mpr ⟨?_, List.pairwise_cons.mpr ⟨by simp, hreads⟩⟩
    rintro _ hb _ ⟨⟩ - rfl
    rcases List.mem_cons.mp hb with heq | hb
    · exact hout (Event.read.inj heq ▸ first_mem h todo)
    · exact hout (hin e hb)
  · intro a ha
    simp only [List.mem_cons, reduceCtorEq, Event.read.injEq, false_or] at ha
    rcases ha with rfl | ha
    · exact htodo _ (first_mem h todo)
    · exact htodo a (hin a ha)

/-- Before the first turn the head and the first entry are read. -/
private theorem EndsWell.start {d : Direction} {before todo : List α}
    {run : Option (List (Event α) × Memory α)} (hw : EndsWell d h fate before todo run) :
    EndsWell d h fate before todo
      (run.map fun r => (.read h :: .read (todo.head?.getD h) :: r.1, r.2)) := by
  obtain ⟨trace, m, s, zs, rfl, hvis, hreads, hin, hrest⟩ := hw
  refine ⟨_, m, s, zs, rfl, by simpa [visited] using hvis, ?_, ?_, hrest⟩
  · exact List.pairwise_cons.mpr ⟨by simp, List.pairwise_cons.mpr ⟨by simp, hreads⟩⟩
  · intro a ha
    simp only [List.mem_cons, Event.read.injEq] at ha
    rcases ha with rfl | rfl | ha
    · exact .head _
    · exact first_mem h todo
    · exact hin a ha

variable [DecidableEq α]

/-- At the loop's head the entries before `pos` are dealt with; the induction is on the others. -/
private theorem safeLoop_run (c : Cursor α κ) (d : Direction) (todo : List α) :
    ∀ {m : Memory α} {s : Lists α} {xs before : List α} {places : α → Prop} {fuel : Nat},
      Holds m s → s.seq h = some xs → d.order xs = before ++ todo →
      (∀ p, places p → s.Place p ∧ p ∉ h :: xs) → Allowed fate places todo →
      todo.length < fuel →
      EndsWell d h fate before todo (safeLoop c d.field (fateBody c fate) h fuel
        (c.entry (todo.head?.getD h)) (c.entry (d.field m (todo.head?.getD h))) m) := by
  induction todo with
  | nil =>
    intro m s xs before places fuel hm hs hxs _ _ hf
    obtain ⟨fuel, rfl⟩ := Nat.exists_eq_succ_of_ne_zero (by omega : fuel ≠ 0)
    refine ⟨[], m, s, xs, ?_, rfl, .nil, by simp, hm, hs, by simpa using hxs⟩
    simp [safeLoop, c.member_entry]
  | cons e todo ih =>
    intro m s xs before places fuel hm hs hxs hplaces hall hf
    obtain ⟨fuel, rfl⟩ := Nat.exists_eq_succ_of_ne_zero (by omega : fuel ≠ 0)
    have hmem : e ∈ xs := d.mem_order.mp (by rw [hxs]; simp)
    have hnd : (before ++ e :: todo).Nodup := hxs ▸ d.nodup_order (s.nodup hs)
    have hh : e ≠ h := fun heq => s.head_not_mem hs (heq ▸ hmem)
    have ht : e ∉ todo := (List.nodup_cons.mp (List.nodup_append.mp hnd).2.1).1
    have hnext : d.field m e = todo.head?.getD h :=
      d.field_of_split (hm.ring hs) (l := h :: before) (by rw [hxs]; rfl)
    obtain ⟨s', ys, hm', hs', rfl, hplaces'⟩ := hm.fate hs hmem hplaces hall.1
    obtain ⟨before', hys, hkeep⟩ := d.order_after hxs hnd fate
    have hbody : fateBody c fate (c.entry e) m = (fate e).run m e := by
      rw [fateBody, c.member_entry]
    have hrest := ih hm' hs' hys hplaces' hall.2 (by simpa using hf)
    rw [List.head?_cons, Option.getD_some, hnext, safeLoop, if_neg (by rwa [c.member_entry]), hbody]
    simp only [c.member_entry]
    exact hrest.turn (by simp [hh, ht]) hkeep

private theorem forEachSafe_run (c : Cursor α κ) (d : Direction) {m : Memory α} {xs : List α}
    {fuel : Nat} {places : α → Prop} (hm : Holds m s) (hs : s.seq h = some xs)
    (hplaces : ∀ p, places p → s.Place p ∧ p ∉ h :: xs) (hall : Allowed fate places (d.order xs))
    (hf : xs.length < fuel) :
    EndsWell d h fate [] (d.order xs) (forEachSafe c d.field (fateBody c fate) h fuel m) := by
  have hlen : (d.order xs).length < fuel := by
    cases d with
    | forward => exact hf
    | backward => simpa [Direction.order] using hf
  have hfirst : d.field m h = (d.order xs).head?.getD h := d.field_of_split (hm.ring hs) (l := []) rfl
  have hloop := safeLoop_run c d (d.order xs) hm hs (List.nil_append _).symm hplaces hall hlen
  rw [forEachSafe, hfirst]
  simp only [c.member_entry]
  exact hloop.start

/-- A loop tolerates the removals of its body: it ends after it has visited each entry once, in
`order`, it reads no field of a removed entry, and the list has the kept entries in their order. -/
def Tolerates (h : α) (fate : α → Fate α) (xs order : List α)
    (run : Option (List (Event α) × Memory α)) : Prop :=
  ∃ trace m s, run = some (trace, m) ∧ visited trace = order ∧ order.Nodup ∧
    ReadsNoRemoved fate trace ∧ Holds m s ∧ s.seq h = some (xs.filter fun e => (fate e).keeps) ∧
    Traverses m h (xs.filter fun e => (fate e).keeps)

private theorem EndsWell.tolerates {d : Direction} {xs : List α}
    {run : Option (List (Event α) × Memory α)}
    (hw : EndsWell d h fate [] (d.order xs) run) (hx : xs.Nodup) :
    Tolerates h fate xs (d.order xs) run := by
  obtain ⟨trace, m, s, zs, hrun, hvis, hreads, -, hm, hs, hzs⟩ := hw
  rw [List.nil_append, d.filter_order] at hzs
  obtain rfl := d.order_injective hzs
  exact ⟨trace, m, s, hrun, hvis, d.nodup_order hx, hreads, hm, hs, hm.traverses hs⟩

private theorem forEachSafe_tolerates (c : Cursor α κ) (d : Direction) {m : Memory α} {xs : List α}
    {fuel : Nat} (hm : Holds m s) (hs : s.seq h = some xs)
    (hall : Allowed fate (fun p => s.Place p ∧ p ∉ h :: xs) (d.order xs)) (hf : xs.length < fuel) :
    Tolerates h fate xs (d.order xs) (forEachSafe c d.field (fateBody c fate) h fuel m) :=
  (forEachSafe_run c d hm hs (fun _ hp => hp) hall hf).tolerates (s.nodup hs)

/-- Each safe loop tolerates every body that removes the entry it is at: whatever the list and
whichever of its entries are removed, then left, overwritten or added to another list. -/
theorem safe_loops_tolerate_removal (c : Cursor α κ) {m : Memory α} {xs : List α} (hm : Holds m s)
    (hs : s.seq h = some xs) (fuel : Nat) (hf : xs.length < fuel) :
    (Allowed fate (fun p => s.Place p ∧ p ∉ h :: xs) xs →
      Tolerates h fate xs xs (listForEachSafe (fateBody .pointer fate) h fuel m) ∧
      Tolerates h fate xs xs (listForEachEntrySafe c (fateBody c fate) h fuel m)) ∧
    (Allowed fate (fun p => s.Place p ∧ p ∉ h :: xs) xs.reverse →
      Tolerates h fate xs xs.reverse (listForEachPrevSafe (fateBody .pointer fate) h fuel m) ∧
      Tolerates h fate xs xs.reverse
        (listForEachEntrySafeReverse c (fateBody c fate) h fuel m)) := by
  refine ⟨fun ha => ⟨?_, ?_⟩, fun ha => ⟨?_, ?_⟩⟩
  · exact forEachSafe_tolerates .pointer .forward hm hs ha hf
  · exact forEachSafe_tolerates c .forward hm hs ha hf
  · exact forEachSafe_tolerates .pointer .backward hm hs ha hf
  · exact forEachSafe_tolerates c .backward hm hs ha hf

end Loop

def twoLists : Lists (BitVec 64) where
  seq h := if h = 0 then some [1, 2] else if h = 5 then some [] else none
  loose _ := False
  nodup {h xs} hs := by
    split_ifs at hs <;> cases hs <;> decide
  apart {g h xs ys a} hs ht hx hy := by
    split_ifs at hs ht <;> cases hs <;> cases ht <;> simp_all
  entry {h xs a} hs hx := by
    split_ifs at hs <;> cases hs
    · refine ⟨?_, not_false⟩
      rcases List.mem_cons.mp hx with rfl | hx
      · rfl
      · rw [List.mem_singleton.mp hx]
        rfl
    · cases hx
  loose_entry hl := hl.elim

def twoListsMemory : Memory (BitVec 64) where
  next a := if a = 0 then 1 else if a = 1 then 2 else if a = 2 then 0 else a
  prev a := if a = 0 then 2 else if a = 1 then 0 else if a = 2 then 1 else a

theorem twoLists_holds : Holds twoListsMemory twoLists where
  ring {h xs} hs := by
    simp only [twoLists] at hs
    split_ifs at hs with h0 h5 <;> cases hs
    · subst h0
      simp [Links.Ring, Links.Joined, twoListsMemory]
    · subst h5
      simp [Links.Ring, Links.Joined, twoListsMemory]
  alone hl := hl.elim

/-- The first of two structures is moved to another list and the second is freed. -/
def moveAndFree (e : BitVec 64) : Fate (BitVec 64) := if e = 1 then .addTail 5 else .overwrite 6 6

theorem moved_and_freed :
    Tolerates 0 moveAndFree [1, 2] [1, 2] (listForEachEntrySafe (.containerOf 16)
      (fateBody (.containerOf 16) moveAndFree) 0 3 twoListsMemory) ∧
    Tolerates 0 moveAndFree [1, 2] [2, 1] (listForEachEntrySafeReverse (.containerOf 16)
      (fateBody (.containerOf 16) moveAndFree) 0 3 twoListsMemory) := by
  have hplace : twoLists.Place 5 := .inl ⟨[], rfl⟩
  have hseq : twoLists.seq 0 = some [1, 2] := rfl
  have hforward : Allowed moveAndFree (fun p => twoLists.Place p ∧ p ∉ [0, 1, 2]) [1, 2] :=
    ⟨⟨hplace, by decide⟩, trivial, trivial⟩
  have hbackward : Allowed moveAndFree (fun p => twoLists.Place p ∧ p ∉ [0, 1, 2]) [2, 1] :=
    ⟨trivial, .inl ⟨hplace, by decide⟩, trivial⟩
  have hlen : [1, 2].length < 3 := by decide
  exact ⟨((safe_loops_tolerate_removal (.containerOf 16) twoLists_holds hseq 3 hlen).1 hforward).2,
    ((safe_loops_tolerate_removal (.containerOf 16) twoLists_holds hseq 3 hlen).2 hbackward).2⟩

end CommonProject.RingList
