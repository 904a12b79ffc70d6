import CommonProject.RingList.SafeLoops

/-! The loops of `list.h` that fetch the next entry after their body: where the body removes an entry
they leave its list and do not come back. -/
namespace CommonProject.RingList
open Foundations CommonProject.RingList.Lists
variable {α κ : Type}

/-- The loop from the cursor `pos` on: what it does in `fuel` turns, and the memory if it has ended. -/
def plainLoop [DecidableEq α] (c : Cursor α κ) (field : Memory α → α → α)
    (body : κ → Memory α → Memory α) (head : α) : Nat → κ → Memory α → List (Event α) × Option (Memory α)
  | 0, _, _ => ([], none)
  | fuel + 1, pos, m =>
    if c.member pos = head then ([], some m)
    else
      let m := body pos m
      let next := c.entry (field m (c.member pos))
      let rest := plainLoop c field body head fuel next m
      (.visit (c.member pos) :: .read (c.member pos) :: rest.1, rest.2)

def forEach [DecidableEq α] (c : Cursor α κ) (field : Memory α → α → α)
    (body : κ → Memory α → Memory α) (head : α) (fuel : Nat) (m : Memory α) :
    List (Event α) × Option (Memory α) :=
  let rest := plainLoop c field body head fuel (c.entry (field m head)) m
  (.read head :: rest.1, rest.2)

section Loops
variable [DecidableEq α]

def listForEachDo (body : α → Memory α → Memory α) (head : α) (fuel : Nat) (m : Memory α) :
    List (Event α) × Option (Memory α) :=
  forEach .pointer (fun m => m.next) body head fuel m

def listForEachPrevDo (body : α → Memory α → Memory α) (head : α) (fuel : Nat) (m : Memory α) :
    List (Event α) × Option (Memory α) :=
  forEach .pointer (fun m => m.prev) body head fuel m

def listForEachEntry (c : Cursor α κ) (body : κ → Memory α → Memory α) (head : α) (fuel : Nat)
    (m : Memory α) : List (Event α) × Option (Memory α) :=
  forEach c (fun m => m.next) body head fuel m

def listForEachEntryReverse (c : Cursor α κ) (body : κ → Memory α → Memory α) (head : α)
    (fuel : Nat) (m : Memory α) : List (Event α) × Option (Memory α) :=
  forEach c (fun m => m.prev) body head fuel m

end Loops

/-- The removed entry stays a list entry: it is not overwritten. -/
def Fate.relinks : Fate α → Bool
  | .overwrite _ _ => false
  | _ => true

section Astray
variable [DecidableEq α] {m : Memory α} {s : Lists α} {h e pos : α} {xs : List α} {fate : Fate α}

omit [DecidableEq α] in
/-- No field leads into a ring from outside it. -/
private theorem Holds.field_outside (hm : Holds m s) (d : Direction) (hs : s.seq h = some xs)
    (hpos : s.Initialised pos) (hout : pos ∉ h :: xs) :
    s.Initialised (d.field m pos) ∧ d.field m pos ∉ h :: xs := by
  rcases hpos with hp | hl
  · obtain ⟨g, ys, hg, ho⟩ := hp.owner
    have hmem : pos ∈ g :: ys := owns_iff_mem.mp ho
    have hne : h ≠ g := by
      rintro rfl
      obtain rfl : xs = ys := Option.some.inj (hs.symm.trans hg)
      exact hout hmem
    have hin : d.field m pos ∈ g :: ys := by
      cases d with
      | forward => exact ((hm.ring hg).next_mem hmem).1
      | backward => exact ((hm.ring hg).prev_mem hmem).1
    have howns := owns_iff_mem.mpr hin
    refine ⟨.inl ?_, fun hx => hne (s.owner_unique hs hg (owns_iff_mem.mpr hx) howns)⟩
    rcases howns with heq | hy
    · exact .inl ⟨ys, heq ▸ hg⟩
    · exact .inr ⟨g, ys, hg, hy⟩
  · have hself : d.field m pos = pos := by
      cases d with
      | forward => exact (hm.alone hl).1
      | backward => exact (hm.alone hl).2
    rw [hself]
    exact ⟨.inr hl, hout⟩

/-- A removed entry is out of the list of `h`, and may be moved in the same way again. -/
private theorem Holds.remove_again (hm : Holds m s) (hs : s.seq h = some xs)
    (he : s.Linked e ∨ s.loose e) (hk : fate.keeps = false) (hr : fate.relinks = true)
    (hin : fate.Into fun p => s.Place p ∧ p ∉ h :: xs ∧ p ≠ e) :
    ∃ s', Holds (fate.run m e) s' ∧ s'.seq h = some (xs.erase e) ∧ (s'.Linked e ∨ s'.loose e) ∧
      fate.Into fun p => s'.Place p ∧ p ∉ h :: xs.erase e ∧ p ≠ e := by
  have hnone := s.seq_none_of_entry he
  have hdel := hm.listDelInit he
  have hfree := s.remove_freeEntry e hnone
  have hseq : (s.remove e hnone).seq h = some (xs.erase e) := by rw [remove_seq, hs, Option.map_some]
  have hsub : ∀ p, p ∉ h :: xs → p ∉ h :: xs.erase e := fun p hp hx =>
    hp (List.cons_subset_cons h List.erase_subset hx)
  cases fate with
  | keep => cases hk
  | overwrite next prev => cases hr
  | leave => exact ⟨_, hdel, hseq, .inr (.inr rfl), trivial⟩
  | add place =>
    obtain ⟨hplace, hout, hne⟩ := hin
    have hplace' := hplace.remove hnone hne
    have hno : ¬ Owns place h (xs.erase e) := fun ho => hsub place hout (owns_iff_mem.mp ho)
    refine ⟨_, hdel.listAdd hfree hplace', ?_, ?_, hplace'.add hfree (putAfter_cases place e),
      hsub place hout, hne⟩
    · rw [addAfter_seq, hseq, Option.map_some, putAfter_other hno]
    · obtain ⟨g, ys, hg, ho⟩ := hplace'.owner
      exact .inl ⟨g, _, by rw [addAfter_seq, hg, Option.map_some], (putAfter_perm ho).mem_iff.mpr (.head _)⟩
  | addTail place =>
    obtain ⟨hplace, hout, hne⟩ := hin
    have hplace' := hplace.remove hnone hne
    have hno : ¬ Owns place h (xs.erase e) := fun ho => hsub place hout (owns_iff_mem.mp ho)
    refine ⟨_, hdel.listAddTail hfree hplace', ?_, ?_, hplace'.add hfree (putBefore_cases place e),
      hsub place hout, hne⟩
    · rw [addBefore_seq, hseq, Option.map_some, putBefore_other hno]
    · obtain ⟨g, ys, hg, ho⟩ := hplace'.owner
      exact .inl ⟨g, _, by rw [addBefore_seq, hg, Option.map_some], (putBefore_perm ho).mem_iff.mpr (.head _)⟩

end Astray

section Loop
variable [DecidableEq α] {m : Memory α} {s : Lists α} {h e pos : α} {xs : List α} {fate : α → Fate α}

private theorem Fate.run_keep {f : Fate α} (hk : f.keeps = true) (m : Memory α) (e : α) :
    f.run m e = m := by
  cases f <;> first | rfl | cases hk

private theorem plainLoop_head (c : Cursor α κ) (field : Memory α → α → α)
    (body : κ → Memory α → Memory α) (h : α) (fuel : Nat) (m : Memory α) :
    plainLoop c field body h (fuel + 1) (c.entry h) m = ([], some m) := by
  rw [plainLoop, c.member_entry, if_pos rfl]

private theorem plainLoop_turn (c : Cursor α κ) (field : Memory α → α → α) (hne : pos ≠ h)
    (fuel : Nat) (m : Memory α) :
    let m' := (fate pos).run m pos
    let rest := plainLoop c field (fateBody c fate) h fuel (c.entry (field m' pos)) m'
    plainLoop c field (fateBody c fate) h (fuel + 1) (c.entry pos) m =
      (.visit pos :: .read pos :: rest.1, rest.2) := by
  have hbody : fateBody c fate (c.entry pos) m = (fate pos).run m pos := by
    rw [fateBody, c.member_entry]
  intro m' rest
  rw [plainLoop, c.member_entry, if_neg hne, hbody]

/-- The loop is outside the list of `h`, on its way through whatever `e` was moved to. -/
def Astray (fate : α → Fate α) (h e : α) (m : Memory α) (pos : α) : Prop :=
  ∃ s zs, Holds m s ∧ s.seq h = some zs ∧ (s.Linked e ∨ s.loose e) ∧
    ((fate e).Into fun p => s.Place p ∧ p ∉ h :: zs ∧ p ≠ e) ∧
    (∀ a, a ∉ zs → a ≠ e → (fate a).keeps = true) ∧ s.Initialised pos ∧ pos ∉ h :: zs

/-- Once outside, every turn ends outside. -/
private theorem Astray.turn (d : Direction) (hk : (fate e).keeps = false)
    (hr : (fate e).relinks = true) (ha : Astray fate h e m pos) :
    pos ≠ h ∧ Astray fate h e ((fate pos).run m pos) (d.field ((fate pos).run m pos) pos) := by
  obtain ⟨s, zs, hm, hs, he, hin, hothers, hpos, hout⟩ := ha
  refine ⟨fun heq => hout (heq ▸ .head _), ?_⟩
  by_cases hpe : pos = e
  · subst hpe
    obtain ⟨s', hm', hs', he', hin'⟩ := hm.remove_again hs he hk hr hin
    have hpz : pos ∉ zs := fun hx => hout (List.mem_cons_of_mem _ hx)
    rw [List.erase_of_not_mem hpz] at hs' hin'
    have hinit : s'.Initialised pos := he'.imp .inr id
    obtain ⟨hinit', hout'⟩ := hm'.field_outside d hs' hinit hout
    exact ⟨s', zs, hm', hs', he', hin', hothers, hinit', hout'⟩
  · have hkeep := hothers pos (fun hx => hout (List.mem_cons_of_mem _ hx)) hpe
    rw [Fate.run_keep hkeep]
    obtain ⟨hinit', hout'⟩ := hm.field_outside d hs hpos hout
    exact ⟨s, zs, hm, hs, he, hin, hothers, hinit', hout'⟩

private theorem Astray.never_ends (c : Cursor α κ) (d : Direction) (hk : (fate e).keeps = false)
    (hr : (fate e).relinks = true) (fuel : Nat) (ha : Astray fate h e m pos) :
    (plainLoop c d.field (fateBody c fate) h fuel (c.entry pos) m).2 = none := by
  induction fuel generalizing m pos with
  | zero => rfl
  | succ fuel ih =>
    obtain ⟨hne, ha'⟩ := ha.turn d hk hr
    rw [plainLoop_turn c d.field hne]
    exact ih ha'

/-- The turn that removes the entry leads outside. -/
private theorem Holds.goes_astray (hm : Holds m s) (d : Direction) (hs : s.seq h = some xs)
    (he : e ∈ xs) (hk : (fate e).keeps = false) (hr : (fate e).relinks = true)
    (hin : (fate e).Into fun p => s.Place p ∧ p ∉ h :: xs)
    (hothers : ∀ a, a ∉ xs → (fate a).keeps = true) :
    Astray fate h e ((fate e).run m e) (d.field ((fate e).run m e) e) := by
  have hmem : e ∈ h :: xs := List.mem_cons_of_mem _ he
  have hin' : (fate e).Into fun p => s.Place p ∧ p ∉ h :: xs ∧ p ≠ e := by
    revert hin
    cases fate e with
    | add place => exact fun hin => ⟨hin.1, hin.2, fun heq => hin.2 (heq ▸ hmem)⟩
    | addTail place => exact fun hin => ⟨hin.1, hin.2, fun heq => hin.2 (heq ▸ hmem)⟩
    | _ => exact fun hin => hin
  obtain ⟨s', hm', hs', he', hplaces⟩ := hm.remove_again hs (.inl ⟨h, xs, hs, he⟩) hk hr hin'
  have hout : e ∉ h :: xs.erase e := by
    rw [List.mem_cons, not_or]
    exact ⟨fun heq => s.head_not_mem hs (heq ▸ he), fun hx => ((s.nodup hs).mem_erase_iff.mp hx).1 rfl⟩
  obtain ⟨hinit, hout'⟩ := hm'.field_outside d hs' (he'.imp .inr id) hout
  refine ⟨s', _, hm', hs', he', hplaces, fun a ha hne => hothers a fun hx => ha ?_, hinit, hout'⟩
  exact (List.mem_erase_of_ne hne).mpr hx

/-- Up to the first entry removed, the loop goes through the list; the induction is on what is to come. -/
private theorem plainLoop_lost (c : Cursor α κ) (d : Direction) (hm : Holds m s)
    (hs : s.seq h = some xs) (hin : ∀ e ∈ xs, (fate e).Into fun p => s.Place p ∧ p ∉ h :: xs)
    (hothers : ∀ a, a ∉ xs → (fate a).keeps = true) (hr : ∀ e ∈ xs, (fate e).relinks = true)
    (before todo : List α) (hxs : d.order xs = before ++ todo)
    (hgone : ∃ e ∈ todo, (fate e).keeps = false) (fuel : Nat) :
    (plainLoop c d.field (fateBody c fate) h fuel (c.entry (todo.head?.getD h)) m).2 = none := by
  induction todo generalizing before fuel with
  | nil =>
    obtain ⟨e, he, -⟩ := hgone
    cases he
  | cons e todo ih =>
    cases fuel with
    | zero => rfl
    | succ fuel =>
      have he : e ∈ xs := d.mem_order.mp (by rw [hxs]; simp)
      have hne : e ≠ h := fun heq => s.head_not_mem hs (heq ▸ he)
      rw [List.head?_cons, Option.getD_some, plainLoop_turn c d.field hne]
      cases hk : (fate e).keeps with
      | false =>
        exact (hm.goes_astray d hs he hk (hr e he) (hin e he) hothers).never_ends c d hk (hr e he) fuel
      | true =>
        have hnext : d.field m e = todo.head?.getD h :=
          d.field_of_split (hm.ring hs) (l := h :: before) (by rw [hxs]; rfl)
        have hrest : ∃ e ∈ todo, (fate e).keeps = false := by
          obtain ⟨a, ha, hka⟩ := hgone
          rcases List.mem_cons.mp ha with rfl | ha
          · exact absurd (hk.symm.trans hka) (by decide)
          · exact ⟨a, ha, hka⟩
        simp only [Fate.run_keep hk, hnext]
        exact ih (before ++ [e]) (by rw [hxs, List.append_assoc]; rfl) hrest fuel

/-- Where nothing is removed, the loop goes once through the list. -/
private theorem plainLoop_kept (c : Cursor α κ) (d : Direction) (hr : m.Ring h xs) (hh : h ∉ xs)
    (before todo : List α) (hxs : d.order xs = before ++ todo)
    (hkeep : ∀ e ∈ todo, (fate e).keeps = true) (fuel : Nat) (hf : todo.length < fuel) :
    ∃ trace, plainLoop c d.field (fateBody c fate) h fuel (c.entry (todo.head?.getD h)) m =
      (trace, some m) ∧ visited trace = todo := by
  induction todo generalizing before fuel with
  | nil =>
    obtain ⟨fuel, rfl⟩ := Nat.exists_eq_succ_of_ne_zero (by omega : fuel ≠ 0)
    exact ⟨[], plainLoop_head c d.field _ h fuel m, rfl⟩
  | cons e todo ih =>
    obtain ⟨fuel, rfl⟩ := Nat.exists_eq_succ_of_ne_zero (by omega : fuel ≠ 0)
    have he : e ∈ xs := d.mem_order.mp (by rw [hxs]; simp)
    have hne : e ≠ h := fun heq => hh (heq ▸ he)
    have hnext : d.field m e = todo.head?.getD h :=
      d.field_of_split hr (l := h :: before) (by rw [hxs]; rfl)
    obtain ⟨trace, hrun, hvis⟩ := ih (before ++ [e]) (by rw [hxs, List.append_assoc]; rfl)
      (fun a ha => hkeep a (List.mem_cons_of_mem _ ha)) fuel (by simpa using hf)
    rw [List.head?_cons, Option.getD_some, plainLoop_turn c d.field hne]
    simp only [Fate.run_keep (hkeep e (.head _)), hnext, hrun]
    exact ⟨_, rfl, congrArg (e :: ·) hvis⟩

/-- So does the safe loop. -/
private theorem safeLoop_kept (c : Cursor α κ) (d : Direction) (hr : m.Ring h xs) (hh : h ∉ xs)
    (before todo : List α) (hxs : d.order xs = before ++ todo)
    (hkeep : ∀ e ∈ todo, (fate e).keeps = true) (fuel : Nat) (hf : todo.length < fuel) :
    ∃ trace, safeLoop c d.field (fateBody c fate) h fuel (c.entry (todo.head?.getD h))
      (c.entry (d.field m (todo.head?.getD h))) m = some (trace, m) ∧ visited trace = todo := by
  induction todo generalizing before fuel with
  | nil =>
    obtain ⟨fuel, rfl⟩ := Nat.exists_eq_succ_of_ne_zero (by omega : fuel ≠ 0)
    exact ⟨[], by simp [safeLoop, c.member_entry], rfl⟩
  | cons e todo ih =>
    obtain ⟨fuel, rfl⟩ := Nat.exists_eq_succ_of_ne_zero (by omega : fuel ≠ 0)
    have he : e ∈ xs := d.mem_order.mp (by rw [hxs]; simp)
    have hne : e ≠ h := fun heq => hh (heq ▸ he)
    have hnext : d.field m e = todo.head?.getD h :=
      d.field_of_split hr (l := h :: before) (by rw [hxs]; rfl)
    obtain ⟨trace, hrun, hvis⟩ := ih (before ++ [e]) (by rw [hxs, List.append_assoc]; rfl)
      (fun a ha => hkeep a (List.mem_cons_of_mem _ ha)) fuel (by simpa using hf)
    have hbody : fateBody c fate (c.entry e) m = m := by
      rw [fateBody, c.member_entry, Fate.run_keep (hkeep e (.head _))]
    rw [List.head?_cons, Option.getD_some, hnext, safeLoop, if_neg (by rwa [c.member_entry]), hbody]
    simp only [c.member_entry, hrun]
    exact ⟨_, rfl, congrArg (e :: ·) hvis⟩

/-- Where something is removed, a field of it is read next. -/
private theorem plainLoop_reads (c : Cursor α κ) (d : Direction) (hr : m.Ring h xs) (hh : h ∉ xs)
    (before todo : List α) (hxs : d.order xs = before ++ todo)
    (hgone : ∃ e ∈ todo, (fate e).keeps = false) (fuel : Nat) (hf : todo.length < fuel) :
    ¬ ReadsNoRemoved fate
      (plainLoop c d.field (fateBody c fate) h fuel (c.entry (todo.head?.getD h)) m).1 := by
  induction todo generalizing before fuel with
  | nil =>
    obtain ⟨e, he, -⟩ := hgone
    cases he
  | cons e todo ih =>
    obtain ⟨fuel, rfl⟩ := Nat.exists_eq_succ_of_ne_zero (by omega : fuel ≠ 0)
    have he : e ∈ xs := d.mem_order.mp (by rw [hxs]; simp)
    have hne : e ≠ h := fun heq => hh (heq ▸ he)
    rw [List.head?_cons, Option.getD_some, plainLoop_turn c d.field hne]
    intro hreads
    obtain ⟨hfirst, hrest⟩ := List.pairwise_cons.mp hreads
    cases hk : (fate e).keeps with
    | false => exact hfirst _ (.head _) e rfl hk rfl
    | true =>
      have hnext : d.field m e = todo.head?.getD h :=
        d.field_of_split hr (l := h :: before) (by rw [hxs]; rfl)
      have hlater : ∃ e ∈ todo, (fate e).keeps = false := by
        obtain ⟨a, ha, hka⟩ := hgone
        rcases List.mem_cons.mp ha with rfl | ha
        · exact absurd (hk.symm.trans hka) (by decide)
        · exact ⟨a, ha, hka⟩
      simp only [Fate.run_keep hk, hnext] at hrest
      exact ih (before ++ [e]) (by rw [hxs, List.append_assoc]; rfl) hlater fuel (by simpa using hf)
        (List.pairwise_cons.mp hrest).2

end Loop

/-- What a plain loop makes of its body, beside the safe loop that meets the same `order`: if nothing is
removed they visit the same entries and change nothing, else the plain loop reads a field of a removed
entry, and never ends if removed entries are left alone or added to other lists. -/
structure NeedsKept [DecidableEq α] (fate : α → Fate α) (m : Memory α) (order : List α)
    (plain : Nat → List (Event α) × Option (Memory α))
    (safe : Nat → Option (List (Event α) × Memory α)) : Prop where
  kept : (∀ e ∈ order, (fate e).keeps = true) → ∀ fuel, order.length < fuel →
    visited (plain fuel).1 = order ∧ (plain fuel).2 = some m ∧
    (safe fuel).map (fun run => (visited run.1, run.2)) = some (order, m)
  reads : ∀ fuel, order.length < fuel → (ReadsNoRemoved fate (plain fuel).1 →
    ∀ e ∈ order, (fate e).keeps = true)
  ends : (∀ e ∈ order, (fate e).relinks = true) → ∀ fuel, (plain fuel).2.isSome = true →
    ∀ e ∈ order, (fate e).keeps = true

section Plain
variable [DecidableEq α] {m : Memory α} {s : Lists α} {h : α} {xs : List α} {fate : α → Fate α}

omit [DecidableEq α] in
private theorem not_all_kept {order : List α} (hn : ¬ ∀ e ∈ order, (fate e).keeps = true) :
    ∃ e ∈ order, (fate e).keeps = false := by
  simpa only [not_forall, Bool.not_eq_true, exists_prop] using hn

private theorem forEach_needs_kept (c : Cursor α κ) (d : Direction) (hm : Holds m s)
    (hs : s.seq h = some xs) (hin : ∀ e ∈ xs, (fate e).Into fun p => s.Place p ∧ p ∉ h :: xs)
    (hothers : ∀ a, a ∉ xs → (fate a).keeps = true) :
    NeedsKept fate m (d.order xs) (fun fuel => forEach c d.field (fateBody c fate) h fuel m)
      (fun fuel => forEachSafe c d.field (fateBody c fate) h fuel m) := by
  have hring := hm.ring hs
  have hh := s.head_not_mem hs
  have hfirst : d.field m h = (d.order xs).head?.getD h := d.field_of_split hring (l := []) rfl
  constructor
  · intro hkeep fuel hf
    obtain ⟨trace, hrun, hvis⟩ := plainLoop_kept c d hring hh [] (d.order xs) rfl hkeep fuel hf
    obtain ⟨trace', hrun', hvis'⟩ := safeLoop_kept c d hring hh [] (d.order xs) rfl hkeep fuel hf
    rw [forEach, forEachSafe, hfirst]
    simp only [c.member_entry, hrun, hrun']
    exact ⟨hvis, trivial, congrArg (fun order => some (order, m)) hvis'⟩
  · intro fuel hf hreads
    by_contra hn
    rw [forEach, hfirst] at hreads
    exact plainLoop_reads c d hring hh [] (d.order xs) rfl (not_all_kept hn) fuel hf
      (List.pairwise_cons.mp hreads).2
  · intro hr fuel hend
    by_contra hn
    have hr' : ∀ e ∈ xs, (fate e).relinks = true := fun e he => hr e (d.mem_order.mpr he)
    rw [forEach, hfirst,
      plainLoop_lost c d hm hs hin hothers hr' [] (d.order xs) rfl (not_all_kept hn) fuel] at hend
    cases hend

/-- Each plain loop is right exactly for the bodies that remove nothing, and then does what the safe one
does. -/
theorem plain_loops_need_kept_entries (c : Cursor α κ) (hm : Holds m s) (hs : s.seq h = some xs)
    (hin : ∀ e ∈ xs, (fate e).Into fun p => s.Place p ∧ p ∉ h :: xs)
    (hothers : ∀ a, a ∉ xs → (fate a).keeps = true) :
    NeedsKept fate m xs (fun fuel => listForEachDo (fateBody .pointer fate) h fuel m)
      (fun fuel => listForEachSafe (fateBody .pointer fate) h fuel m) ∧
    NeedsKept fate m xs (fun fuel => listForEachEntry c (fateBody c fate) h fuel m)
      (fun fuel => listForEachEntrySafe c (fateBody c fate) h fuel m) ∧
    NeedsKept fate m xs.reverse (fun fuel => listForEachPrevDo (fateBody .pointer fate) h fuel m)
      (fun fuel => listForEachPrevSafe (fateBody .pointer fate) h fuel m) ∧
    NeedsKept fate m xs.reverse (fun fuel => listForEachEntryReverse c (fateBody c fate) h fuel m)
      (fun fuel => listForEachEntrySafeReverse c (fateBody c fate) h fuel m) := by
  refine ⟨?_, ?_, ?_, ?_⟩
  · exact forEach_needs_kept .pointer .forward hm hs hin hothers
  · exact forEach_needs_kept c .forward hm hs hin hothers
  · exact forEach_needs_kept .pointer .backward hm hs hin hothers
  · exact forEach_needs_kept c .backward hm hs hin hothers

def moveFirst (e : BitVec 64) : Fate (BitVec 64) := if e = 1 then .addTail 5 else .keep

theorem moved_and_lost : ¬ ∃ fuel, (listForEachEntry (.containerOf 16)
    (fateBody (.containerOf 16) moveFirst) 0 fuel twoListsMemory).2.isSome = true := by
  have hseq : twoLists.seq 0 = some [1, 2] := rfl
  have hin : ∀ e ∈ [1, 2], (moveFirst e).Into fun p => twoLists.Place p ∧ p ∉ [0, 1, 2] := by
    intro e he
    rcases List.mem_cons.mp he with rfl | he
    · exact ⟨.inl ⟨[], rfl⟩, by decide⟩
    · rw [List.mem_singleton.mp he]
      trivial
  have hothers : ∀ a, a ∉ [1, 2] → (moveFirst a).keeps = true := by
    intro a ha
    have hne : a ≠ 1 := fun heq => ha (heq ▸ .head _)
    rw [moveFirst, if_neg hne]
    rfl
  have hrelinks : ∀ e ∈ [1, 2], (moveFirst e).relinks = true := by
    intro e _
    unfold moveFirst
    split <;> rfl
  rintro ⟨fuel, hend⟩
  have hkeep := (plain_loops_need_kept_entries (.containerOf 16) twoLists_holds hseq hin hothers).2.1.ends
    hrelinks fuel hend 1 (.head _)
  exact absurd hkeep (by decide)

end Plain

end CommonProject.RingList
