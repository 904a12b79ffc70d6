import CommonProject.Workqueue.Shutdown

/-! The cleanup of a failed initialisation. -/
namespace CommonProject.Workqueue
open Foundations
variable {ω : Type}

/-- The cleanup path of `init_workqueue`, after `i` successful creations and a failed one. -/
@[simp] def OwnerPc.cleaning : OwnerPc → Option Nat
  | .uncount i | .cleanTest i | .cleanSignal i | .cleanDestroy i => some i
  | .exitTest c | .exitSignal c | .exitLock c | .exitUnlock c => c.created
  | .lockDestroy i | .failed i => i
  | _ => none

/-- The failed initialisation is cleaned up: the condition is not used after its destruction,
no worker is left when `init_workqueue` returns -1, and it can always still return. -/
def CleanupCorrect (ω : Type) [DecidableEq ω] (n i : Nat) : Prop :=
  ∀ (old : WorkqueueStruct ω) (name : String) (s : State ω),
    Reachable (step n) (initial old name) s → s.owner.cleaning = some i →
    s.shared.condMisused = false ∧
    (s.owner = .failed (some i) → s.shared.refCount = 0 ∧ ∀ pc ∈ s.workers, pc = .exited) ∧
    ∃ t, Reachable (step n) s t ∧ t.owner = .failed (some i)

@[simp] def OwnerPc.signalling : OwnerPc → Bool
  | .cleanSignal _ | .exitSignal _ => true
  | _ => false

structure Quiet (s : State ω) : Prop where
  signalling : s.owner.setup = some 0 → s.owner.signalling = false
  condMisused : s.owner.setup = some 0 → s.shared.condMisused = false

def OwnerPc.remaining : OwnerPc → Nat
  | .uncount _ => 7
  | .cleanTest _ => 6
  | .cleanDestroy _ => 5
  | .exitTest _ => 4
  | .exitLock _ => 3
  | .exitUnlock _ => 2
  | .lockDestroy _ => 1
  | _ => 0

private theorem OwnerPc.setup_of_cleaning {o : OwnerPc} {i : Nat} (h : o.cleaning = some i) :
    o.setup = some i ∧ o.begun := by
  cases o with
  | exitTest c | exitSignal c | exitLock c | exitUnlock c => cases c <;> simp_all
  | _ => simp_all

private theorem OwnerAct.quiet {n : Nat} {ok : Bool} {σ σ' : Shared ω} {e : Effect} {o o' : OwnerPc}
    (h : OwnerAct n ok σ o σ' o' e) (hb : o.begun) (h' : o'.setup = some 0)
    (hw : σ.nrWorker = 0) (hr : o.creating = false → σ.refCount = 0) (hq : o.signalling = false) :
    o'.signalling = false ∧ σ'.condMisused = σ.condMisused := by
  cases h
  all_goals simp_all [Shared.unlock, Shared.warn]

private theorem OwnerAct.setup_zero {n : Nat} {ok : Bool} {σ σ' : Shared ω} {e : Effect}
    {o o' : OwnerPc} (h : OwnerAct n ok σ o σ' o' e) (hb : o.begun) (h' : o'.setup = some 0) :
    o.setup = some 0 := by
  obtain ⟨-, ⟨hsame, -⟩ | ⟨i, -, rfl, -⟩⟩ := h.setup hb h'
  · exact hsame
  · cases h'

/-- Without workers each step brings the cleanup closer to its end. -/
private theorem ownerStep_cleanup (n : Nat) {σ : Shared ω} {o : OwnerPc} (hc : o.cleaning = some 0)
    (hs : o.signalling = false) (hf : o ≠ .failed (some 0)) (hw : σ.nrWorker = 0)
    (hr : o.creating = false → σ.refCount = 0) (hl : σ.locked = o.critical) :
    ∃ σ' o', ownerStep n true σ o = some (σ', o', .none) ∧ o'.cleaning = some 0 ∧
      o'.remaining < o.remaining := by
  cases o with
  | uncount i => exact ⟨_, .cleanTest i, rfl, hc, by simp [OwnerPc.remaining]⟩
  | cleanTest i => exact ⟨_, .cleanDestroy i, if_pos hw, hc, by simp [OwnerPc.remaining]⟩
  | cleanDestroy i => exact ⟨_, .exitTest (.cleanup i), rfl, hc, by simp [OwnerPc.remaining]⟩
  | exitTest c => exact ⟨_, .exitLock c, if_pos (hr rfl), hc, by simp [OwnerPc.remaining]⟩
  | exitLock c =>
    exact ⟨_, .exitUnlock c, Shared.lock_map_eq_some.mpr ⟨hl, rfl, rfl, rfl⟩, hc,
      by simp [OwnerPc.remaining]⟩
  | exitUnlock c =>
    cases c with
    | cleanup i => exact ⟨_, .lockDestroy (some i), rfl, hc, by simp [OwnerPc.remaining]⟩
    | destroy => cases hc
  | lockDestroy i => exact ⟨_, .failed i, rfl, hc, by simp [OwnerPc.remaining]⟩
  | failed i => exact absurd (congrArg OwnerPc.failed hc) hf
  | cleanSignal i | exitSignal c => cases hs
  | _ => cases hc

section Global
variable {n : Nat} {s t : State ω}

private theorem Phased.no_workers (hp : Phased n s) (ha : Accounted n s)
    (h : s.owner.setup = some 0) : s.workers = [] ∧ s.calls = [] ∧ s.shared.nrWorker = 0 ∧
    (s.owner.creating = false → s.shared.refCount = 0) := by
  obtain ⟨-, hl, hc, -⟩ := hp.setup 0 h
  have hnil := List.length_eq_zero_iff.mp hl
  have hr := (hp.refs_le ha h).1
  refine ⟨hnil, hc, ?_, fun hcr => ?_⟩
  · rw [ha.started, hnil, number_nil]
  · rw [hcr] at hr
    simpa using hr

variable [DecidableEq ω]

private theorem Quiet.move (hq : Quiet s) (ha : Accounted n s) (hp : Phased n s) (hm : Move n s t) :
    Quiet t := by
  cases hm with
  | worker hk =>
    refine ⟨hq.signalling, fun h => ?_⟩
    rw [(hp.no_workers ha h).1] at hk
    cases hk
  | wake hw => exact ⟨hq.signalling, hq.condMisused⟩
  | submit => exact ⟨hq.signalling, hq.condMisused⟩
  | call hk =>
    refine ⟨hq.signalling, fun h => ?_⟩
    rw [(hp.no_workers ha h).2.1] at hk
    cases hk
  | owner hs hw =>
    refine ⟨fun h => ?_, fun h => ?_⟩
    all_goals
      have h0 := hs.setup_zero ha.begun h
      obtain ⟨-, -, hn, hr⟩ := hp.no_workers ha h0
      obtain ⟨hsig, hmis⟩ := hs.quiet ha.begun h hn hr (hq.signalling h0)
    · exact hsig
    · exact hmis.trans (hq.condMisused h0)

private theorem step_owner {ok : Bool} {target : Option Nat} {σ : Shared ω} {o : OwnerPc}
    (h : ownerStep n ok s.shared s.owner = some (σ, o, .none)) :
    step n s (.owner ok target) = some { s with shared := σ, owner := o } := by
  simp [step, h, perform]

private theorem cleanup_step (ha : Accounted n s) (hp : Phased n s) (hq : Quiet s)
    (hc : s.owner.cleaning = some 0) (hf : s.owner ≠ .failed (some 0)) :
    ∃ t, step n s (.owner true none) = some t ∧ t.owner.cleaning = some 0 ∧
      t.owner.remaining < s.owner.remaining := by
  have hset := (OwnerPc.setup_of_cleaning hc).1
  obtain ⟨hnil, hcalls, hn0, hr0⟩ := hp.no_workers ha hset
  have hlock := ha.lock
  rw [hnil, hcalls, number_nil, number_nil, zero_add, zero_add] at hlock
  obtain ⟨σ, o, hstep, ho, hlt⟩ :=
    ownerStep_cleanup n hc (hq.signalling hset) hf hn0 hr0 (toInt_inj hlock.symm)
  exact ⟨_, step_owner hstep, ho, hlt⟩

end Global

section Runs
variable [DecidableEq ω] {n i : Nat} {old : WorkqueueStruct ω} {name : String} {s : State ω}

theorem reachable_quiet (h : Reachable (step n) (opened n old name) s) :
    Accounted n s ∧ Phased n s ∧ Quiet s :=
  h.invariant (P := fun s => Accounted n s ∧ Phased n s ∧ Quiet s)
    ⟨(opened_sound n old name).accounted, (opened_sound n old name).phased,
      fun _ => rfl, fun _ => rfl⟩
    fun hi he => ⟨hi.1.move (step_move he), hi.2.1.move hi.1 (step_move he),
      hi.2.2.move hi.1 hi.2.1 (step_move he)⟩

private theorem reachable_cleaning (h : Reachable (step n) (initial old name) s)
    (hc : s.owner.cleaning = some i) : Reachable (step n) (opened n old name) s := by
  refine (reachable_opened h).resolve_left fun ho => ?_
  have hb := (OwnerPc.setup_of_cleaning hc).2
  rw [ho.notBegun] at hb
  cases hb

private theorem cleanup_ends (h : Reachable (step n) (opened n old name) s)
    (hc : s.owner.cleaning = some 0) :
    ∃ t, Reachable (step n) s t ∧ t.owner = .failed (some 0) := by
  generalize hk : s.owner.remaining = k
  induction k using Nat.strong_induction_on generalizing s with
  | _ k ih =>
    by_cases hf : s.owner = .failed (some 0)
    · exact ⟨s, .refl s, hf⟩
    · obtain ⟨ha, hp, hq⟩ := reachable_quiet h
      obtain ⟨t, ht, hct, hlt⟩ := cleanup_step ha hp hq hc hf
      obtain ⟨u, hu, hfu⟩ := ih _ (hk ▸ hlt) (h.tail ht) hct rfl
      exact ⟨u, hu.head ht, hfu⟩

private theorem step_loop (ho : s.owner = .loop i) (hi : i < n) :
    ∃ t, step n s (.owner true none) = some t ∧ t.owner = .create i := by
  have hs : ownerStep n true s.shared s.owner =
      some ({ s.shared with refCount := s.shared.refCount + 1 }, .create i, .none) := by
    rw [ho]
    exact if_pos hi
  exact ⟨_, step_owner hs, rfl⟩

private theorem creations_reachable (hi : i ≤ n) :
    ∃ s, Reachable (step n) (opened n old name) s ∧ s.owner = .loop i := by
  induction i with
  | zero => exact ⟨_, .refl _, rfl⟩
  | succ i ih =>
    obtain ⟨s, hs, ho⟩ := ih (by omega)
    obtain ⟨t, ht, hot⟩ := step_loop ho (by omega : i < n)
    have hcreate : step n t (.owner true none) =
        some { t with workers := t.workers ++ [.created], owner := .loop (i + 1) } := by
      simp [step, hot, ownerStep, perform]
    exact ⟨_, (hs.tail ht).tail hcreate, rfl⟩

/-- A worker that has been created never leaves, so the cleanup waits for it forever. -/
private theorem no_worker_when_failed (h : Reachable (step n) (opened n old name) s)
    (ho : s.owner = .failed (some i)) : i = 0 := by
  obtain ⟨ha, hp, -⟩ := reachable_quiet h
  have hr := (hp.refs_le ha (i := i) (by rw [ho]; rfl)).1
  rw [(reachable_outlived h).2.refs (by rw [ho]; rfl), ho] at hr
  simpa using hr.symm

private theorem opened_reachable (hname : name.utf8ByteSize + 1 ≤ workqueueNameLen) :
    Reachable (step n) (initial old name) (opened n old name) := by
  have hassign : ownerStep n true (initial old name).shared (.enter name) =
      some (assignFields n (initial old name).shared name, .mutexInit, .none) :=
    if_neg (by omega)
  have hs : step n (initial old name) (.owner true none) = some _ := step_owner hassign
  exact .head hs ⟨List.replicate 3 (.owner true none), rfl⟩

/-- Any number of creations can succeed before one fails. -/
private theorem cleaning_reachable (hi : i < n) : ∃ s : State ω,
    Reachable (step n) (initial ⟨false, 0, 0, 0, 0, 0, "", []⟩ "") s ∧
    s.owner.cleaning = some i := by
  let old : WorkqueueStruct ω := ⟨false, 0, 0, 0, 0, 0, "", []⟩
  obtain ⟨s, hs, ho⟩ : ∃ s, Reachable (step n) (opened n old "") s ∧ s.owner = .loop i :=
    creations_reachable hi.le
  obtain ⟨t, ht, hot⟩ := step_loop ho hi
  have hfail : step n t (.owner false none) = some { t with owner := .uncount i } := by
    simp [step, hot, ownerStep, perform]
  exact ⟨_, (((opened_reachable (by decide)).trans hs).tail ht).tail hfail, rfl⟩

private theorem none_created_of_correct (hi : i < n) (h : CleanupCorrect ω n i) : i = 0 := by
  obtain ⟨s, hs, hc⟩ := cleaning_reachable (ω := ω) hi
  obtain ⟨-, -, t, ht, ho⟩ := h _ _ s hs hc
  exact no_worker_when_failed ((reachable_cleaning hs hc).trans ht) ho

/-- The cleanup of a failed initialisation works only when no worker has been created. -/
theorem cleanup_correct_iff (hi : i < n) : CleanupCorrect ω n i ↔ i = 0 := by
  constructor
  · exact none_created_of_correct hi
  · rintro rfl old name s hs hc
    have hr := reachable_cleaning hs hc
    obtain ⟨ha, hp, hq⟩ := reachable_quiet hr
    have hset := (OwnerPc.setup_of_cleaning hc).1
    refine ⟨hq.condMisused hset, fun ho => ⟨?_, ?_⟩, cleanup_ends hr hc⟩
    · exact (reachable_outlived hr).2.refs (by rw [ho]; rfl)
    · exact (reachable_outlived hr).2.joined (by rw [ho]; rfl)

theorem cleanup_correct_at_first : CleanupCorrect Nat 1 0 :=
  (cleanup_correct_iff (by decide)).mpr rfl

/-- When the second of two creations fails, the first worker keeps the cleanup from ending. -/
theorem cleanup_incorrect_at_second : ¬ CleanupCorrect Nat 2 1 := fun h =>
  absurd (none_created_of_correct (by decide) h) (by decide)

end Runs
end CommonProject.Workqueue
