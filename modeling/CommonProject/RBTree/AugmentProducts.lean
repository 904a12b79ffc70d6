import CommonProject.RBTree.AugmentSplice

/-! Callbacks that maintain a product in any monoid. -/
namespace CommonProject.RBTree
open Foundations.RedBlack
variable {α W ρ V : Type} [Monoid V] [DecidableEq V] [Word α W] [DecidableEq α]

section Callbacks
variable (val : α → V)

def computeData (node : Option α) : AugProg α W ρ (α → V) V := do
  let x ← plain (deref node)
  let left ← plain (loadLeft node)
  let right ← plain (loadRight node)
  let aug ← get
  return combine .left (augOf aug left) (val x) (augOf aug right)

def storeData (node : Option α) (v : V) : AugProg α W ρ (α → V) Unit := do
  let x ← plain (deref node)
  modify fun aug => Function.update aug x v

/-- Up to `stop`, or to a node that holds the right product already. -/
def propagateData : Nat → Option α → Option α → AugProg α W ρ (α → V) Unit
  | 0, _, _ => plain (throw .outOfFuel)
  | fuel + 1, node, stop => do
    if node = stop then return ()
    else
      let x ← plain (deref node)
      let v ← computeData val node
      if (← get) x = v then return ()
      else
        storeData node v
        let parent ← plain (rbParent node)
        propagateData fuel parent stop

/-- Callbacks for any product; the loop of `propagate` is cut off after so many turns. -/
def productCallbacks (bound : Nat) : AugmentCallbacks α W ρ (α → V) where
  propagate := propagateData val (bound + 1)
  copy old new := do
    let x ← plain (deref old)
    storeData new ((← get) x)
  rotate old new := do
    let x ← plain (deref old)
    storeData new ((← get) x)
    storeData old (← computeData val old)

end Callbacks

section Loop
variable {val aug : α → V} {m : Memory α W ρ} {v : V} {p stop : Option α} {bound : Nat}
  {up : List (Frame α)}

omit [Word α W] [DecidableEq α] [DecidableEq V] in
@[simp] theorem exec_computeData (x : α) :
    exec (computeData val (some x)) aug m = pure ((computed val m aug x, aug), m) := rfl

omit [Word α W] [DecidableEq V] [Monoid V] in
@[simp] theorem exec_storeData (x : α) :
    exec (storeData (some x) v) aug m = pure (((), Function.update aug x v), m) := rfl

/-- One turn of the loop. -/
private theorem exec_propagateData_cons (fuel : Nat) (aug : α → V) (m : Memory α W ρ) {x : α}
    (h : some x ≠ stop) :
    exec (propagateData val (fuel + 1) (some x) stop) aug m =
      if aug x = computed val m aug x then pure (((), aug), m)
      else exec (propagateData val fuel (Word.parent (m.rbParentColor x)) stop)
        (Function.update aug x (computed val m aug x)) m := by
  have hget : exec (get : AugProg α W ρ (α → V) (α → V)) aug m = pure ((aug, aug), m) := rfl
  have hderef : (deref (some x) : Prog α W ρ α).run m = pure (x, m) := rfl
  simp only [propagateData, if_neg h, exec_bind, exec_plain, hderef, pure_bind, exec_computeData, hget]
  split
  · rfl
  · simp only [exec_bind, exec_storeData, exec_plain, run_rbParent, pure_bind]

/-- The loop ends at `stop` at the latest, with right products up to there. -/
private theorem exec_propagateData (hlen : up.length ≤ bound) (h : Climb m stop p up)
    (hnd : (around up).Nodup) (hout : ∀ x ∈ around up, p ≠ some x ∧ stop ≠ some x)
    (hstale : Stale val aug up) :
    ∃ aug', exec (propagateData val (bound + 1) (upTo stop up) stop) aug m = pure (((), aug'), m) ∧
      (∀ x, x ∉ around up → aug' x = aug x) ∧ SummedAround val aug' (augOf aug p) up := by
  induction up generalizing p aug bound with
  | nil =>
    refine ⟨aug, ?_, fun _ _ => rfl, trivial⟩
    simp [propagateData, upTo]
  | cons f up ih =>
    obtain ⟨hp, hs, hw, hup⟩ := h
    obtain ⟨hsib, hctx⟩ := hstale
    simp only [around, List.cons_append, List.nodup_cons, List.mem_append, not_or,
      List.nodup_append'] at hnd
    obtain ⟨⟨hfs, hfu⟩, -, hndup, hdisj⟩ := hnd
    obtain ⟨k, rfl⟩ := Nat.exists_eq_add_one_of_ne_zero (Nat.ne_zero_of_lt hlen)
    have hne : some f.value ≠ stop := (hout f.value (by simp [around])).2.symm
    have hcomputed : computed val m aug f.value =
        combine f.dir (augOf aug p) (val f.value) (product val f.sibling) := by
      rw [computed_eq f.dir, hp, hs, hsib.augOf_root]
    rw [upTo, exec_propagateData_cons (k + 1) aug m hne, hcomputed]
    generalize hv : combine f.dir (augOf aug p) (val f.value) (product val f.sibling) = v
    by_cases hsame : aug f.value = v
    · exact ⟨aug, if_pos hsame, fun _ _ => rfl, hsame.trans hv.symm, hsib, hctx⟩
    · have hset : ∀ x, x ≠ f.value → Function.update aug f.value v x = aug x := fun x hx =>
        Function.update_of_ne hx ..
      have hstale : Stale val (Function.update aug f.value v) up :=
        (stale_congr fun x hx => hset x (ne_of_mem_of_not_mem hx hfu)).mpr hctx.stale
      have hout' : ∀ x ∈ around up, some f.value ≠ some x ∧ stop ≠ some x := fun x hx =>
        ⟨fun hfx => hfu (Option.some.inj hfx ▸ hx), (hout x (by simp [around, hx])).2⟩
      obtain ⟨aug', hrest, hsame', hsum⟩ :=
        ih (Nat.le_of_succ_le_succ hlen) hup hndup hout' hstale
      have hself : Function.update aug f.value v f.value = v := Function.update_self ..
      refine ⟨aug', ?_, ?_, ?_, ?_, ?_⟩
      · rw [if_neg hsame, hw, hrest]
      · intro x hx
        simp only [around, List.cons_append, List.mem_cons, List.mem_append, not_or] at hx
        rw [hsame' x hx.2.2, hset x hx.1]
      · rw [hsame' f.value hfu, hself, hv]
      · refine (summed_congr fun x hx => ?_).mpr hsib
        rw [hsame' x (hdisj hx), hset x (ne_of_mem_of_not_mem hx hfs)]
      · rwa [hsame' f.value hfu]

end Loop

section Silence
variable {σ β γ : Type} {q : AugProg α W ρ σ β} {f : β → AugProg α W ρ σ γ} {x : Option α}

omit [Monoid V] [DecidableEq V] [Word α W] [DecidableEq α]

private theorem Silent.bind (hq : Silent q) (hf : ∀ b, Silent (f b)) : Silent (q >>= f) := by
  intro aug m r h
  rw [exec_bind] at h
  cases hrun : exec q aug m with
  | error e =>
    rw [hrun] at h
    cases h
  | ok b =>
    rw [hrun] at h
    exact (hf _ h).trans (hq hrun)

private theorem silent_pure (b : β) : Silent (pure b : AugProg α W ρ σ β) := by
  rintro aug m r ⟨⟩
  rfl

private theorem silent_get : Silent (get : AugProg α W ρ σ σ) := by
  rintro aug m r ⟨⟩
  rfl

theorem silent_modify (g : σ → σ) : Silent (modify g : AugProg α W ρ σ Unit) := by
  rintro aug m r ⟨⟩
  rfl

/-- A read at a node, or at NULL. -/
private theorem silent_read {r : Option α → Prog α W ρ β}
    (hnone : ∀ m, (r none).run m = .error .nullDeref)
    (hsome : ∀ v m, ∃ b, (r (some v)).run m = .ok (b, m)) :
    Silent (plain (r x) : AugProg α W ρ σ β) := by
  intro aug m u h
  cases x with
  | none =>
    rw [exec_plain, hnone] at h
    cases h
  | some v =>
    obtain ⟨b, hb⟩ := hsome v m
    rw [exec_plain_of hb] at h
    cases h
    rfl

private theorem silent_deref : Silent (plain (deref x) : AugProg α W ρ σ α) :=
  silent_read (fun _ => rfl) fun _ _ => ⟨_, rfl⟩

end Silence

omit [Word α W] [DecidableEq V] [DecidableEq α] in
private theorem silent_computeData (val : α → V) (x : Option α) :
    Silent (computeData val x : AugProg α W ρ (α → V) V) :=
  silent_deref.bind fun _ => .bind (silent_read (fun _ => rfl) fun _ _ => ⟨_, rfl⟩) fun _ =>
    .bind (silent_read (fun _ => rfl) fun _ _ => ⟨_, rfl⟩) fun _ => silent_get.bind fun _ => silent_pure _

omit [Word α W] [DecidableEq V] [Monoid V] in
private theorem silent_storeData (x : Option α) (v : V) :
    Silent (storeData x v : AugProg α W ρ (α → V) Unit) :=
  silent_deref.bind fun _ => silent_modify _

private theorem silent_propagateData (val : α → V) (fuel : Nat) (x stop : Option α) :
    Silent (propagateData val fuel x stop : AugProg α W ρ (α → V) Unit) := by
  induction fuel generalizing x with
  | zero => rintro aug m r ⟨⟩
  | succ fuel ih =>
    rw [propagateData]
    split
    · exact silent_pure _
    · refine silent_deref.bind fun _ => (silent_computeData ..).bind fun _ => silent_get.bind fun _ => ?_
      split
      · exact silent_pure _
      · exact (silent_storeData ..).bind fun _ => .bind
          (silent_read (fun _ => rfl) fun _ _ => ⟨_, rfl⟩) fun _ => ih _

/-- These callbacks do what a tree that maintains products asks for. -/
theorem productCallbacks_maintains (val : α → V) (bound : Nat) :
    Maintains val (productCallbacks val bound : AugmentCallbacks α W ρ (α → V)) bound where
  rotate_eq _ _ _ _ := rfl
  copy_eq _ _ _ _ := rfl
  propagate_eq := exec_propagateData
  propagate _ _ := silent_propagateData ..
  copy _ _ := silent_deref.bind fun _ => silent_get.bind fun _ => silent_storeData ..
  rotate _ _ := silent_deref.bind fun _ => silent_get.bind fun _ => (silent_storeData ..).bind fun _ =>
    (silent_computeData ..).bind fun _ => silent_storeData ..

end CommonProject.RBTree
