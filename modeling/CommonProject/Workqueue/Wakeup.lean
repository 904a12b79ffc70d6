import CommonProject.Workqueue.Delivery

/-! No wake-up is lost: a queued work always has a worker on its way to it. -/
namespace CommonProject.Workqueue
open Foundations
variable {ω : Type}

@[simp] def WorkerPc.awake : WorkerPc ω → Bool
  | .checkAlive | .surplusTest | .blocked | .leaveCount | .leaveRef | .leaveUnlock | .exited => false
  | _ => true

/-- The work is on the list and its signal is still to come. -/
@[simp] def CallPc.pending : CallPc ω → Bool
  | .storeWq _ | .notify _ => true
  | _ => false

/-- The queue was alive when the work was put on the list, and the lock has been held since. -/
@[simp] def CallPc.committed : CallPc ω → Bool
  | .storeWq _ | .notify _ => true
  | .unlock _ r => decide (r = .ok)
  | _ => false

def Committed (s : State ω) : Prop := ∀ pc ∈ s.calls, pc.committed → s.shared.alive

/-- A worker is going to look at the queued works, or a signal for it is still to come. -/
def Attended (s : State ω) : Prop :=
  s.shared.workList ≠ [] → 0 < number WorkerPc.awake s.workers + number CallPc.pending s.calls

section Local
variable [DecidableEq ω] {ok : Bool} {σ σ' : Shared ω} {e : Effect}

private theorem perform_awake {target : Option Nat} {ws ws' : List (WorkerPc ω)}
    (h : perform target ws e = some ws') :
    number WorkerPc.awake ws ≤ number WorkerPc.awake ws' := by
  cases e with
  | none => cases h; rfl
  | spawn =>
    cases h
    simp
  | signal =>
    cases target with
    | some k =>
      obtain ⟨hk, rfl⟩ := wakeWorker_eq_some.mp h
      rw [number_set _ _ hk]
      simp
    | none =>
      simp only [perform] at h
      split at h
      · cases h
      · cases h; rfl

private theorem perform_signal {target : Option Nat} {ws ws' : List (WorkerPc ω)}
    (h : perform target ws .signal = some ws') (hb : .blocked ∈ ws) : .woken ∈ ws' := by
  cases target with
  | some k =>
    obtain ⟨hk, rfl⟩ := wakeWorker_eq_some.mp h
    exact List.mem_set (List.getElem?_eq_some_iff.mp hk).1 _
  | none => simp [perform, hb] at h

/-- A worker goes to sleep only after it has seen the list empty. -/
theorem WorkerAct.awake {pc pc' : WorkerPc ω} (h : WorkerAct ok σ pc σ' pc' e) :
    (σ'.workList ≠ [] → σ.workList ≠ []) ∧
    (pc.awake.toInt ≤ pc'.awake.toInt ∨ σ'.workList = []) := by
  cases h
  all_goals simp_all [Shared.unlock, Shared.useCond, Shared.warn]

theorem CallAct.pending {pc pc' : CallPc ω} (h : CallAct σ pc σ' pc' e) :
    pc'.pending ∨ (σ'.workList = σ.workList ∧ pc.pending = false) ∨
    (∃ w, pc = .notify w) ∧ (e = .signal ∨ σ.nrIdleWorker = 0) := by
  cases h
  all_goals simp_all [Shared.unlock, Shared.useCond]

private theorem CallAct.committed {pc pc' : CallPc ω} (h : CallAct σ pc σ' pc' e)
    (hc : pc'.committed) : pc.committed ∨ σ.alive := by
  cases h
  all_goals simp_all

omit [DecidableEq ω] in
private theorem OwnerAct.keeps_alive {n : Nat} {o o' : OwnerPc}
    (h : OwnerAct n ok σ o σ' o' e) (hb : o.begun) :
    σ'.alive = σ.alive ∨ o.critical := by
  cases h
  all_goals simp_all [Shared.unlock, Shared.useCond, Shared.warn]

end Local

section Global
variable {n : Nat} {s t : State ω}

theorem OwnerPc.setup_or_initialised {o : OwnerPc} (h : o.begun) :
    o.setup ≠ none ∨ o.initialised := by
  cases o with
  | exitTest c | exitSignal c | exitLock c | exitUnlock c =>
    cases c <;> simp [OwnerPc.initialised, OwnerPc.accepting]
  | lockDestroy i | failed i => cases i <;> simp_all
  | _ => simp_all [OwnerPc.initialised, OwnerPc.accepting]

/-- Whoever queues a work finds a worker that will look, or one to be signalled. -/
theorem Sound.attended_after_notify [DecidableEq ω] (h : Sound n s) (hn : 1 ≤ n)
    (hi : s.owner.initialised) (hal : s.shared.alive)
    (hfree : number WorkerPc.critical s.workers = 0) {target : Option Nat} {e : Effect}
    {ws : List (WorkerPc ω)} (he : e = .signal ∨ s.shared.nrIdleWorker = 0)
    (hw : perform target s.workers e = some ws) : 0 < number WorkerPc.awake ws := by
  obtain ⟨pc, hpc, hst⟩ := h.exists_staying hn hi hal
  have hcrit := number_eq_zero.mp hfree pc hpc
  by_cases haw : pc.awake
  · exact (number_pos.mpr ⟨pc, hpc, haw⟩).trans_le (perform_awake hw)
  · have hblocked : pc = .blocked := by cases pc <;> simp_all
    subst hblocked
    rcases he with rfl | hzero
    · exact number_pos.mpr ⟨_, perform_signal hw hpc, rfl⟩
    · have hidle := number_pos.mpr ⟨_, hpc, (rfl : WorkerPc.blocked.idle = true)⟩
      rw [← h.accounted.idle] at hidle
      omega

theorem Phased.initialised_of_call (hp : Phased n s) (hb : s.owner.begun) {pc : CallPc ω}
    (hm : pc ∈ s.calls) : s.owner.initialised := by
  refine (OwnerPc.setup_or_initialised hb).resolve_left fun hne => ?_
  obtain ⟨i, hi⟩ := Option.ne_none_iff_exists'.mp hne
  rw [(hp.setup i hi).2.2.1] at hm
  cases hm

variable [DecidableEq ω]

private theorem Committed.move (h : Committed s) (ha : Accounted n s) (hm : Move n s t) :
    Committed t := by
  intro c hc hcc
  cases hm with
  | worker hk hstep hw => exact hstep.setup.alive ▸ h c hc hcc
  | wake hw => exact h c hc hcc
  | submit =>
    rcases List.mem_append.mp hc with hm | hm
    · exact h c hm hcc
    · rw [List.mem_singleton.mp hm] at hcc
      cases hcc
  | @call _ _ pc _ _ _ _ hk hstep hw =>
    simp only [hstep.setup.1.alive]
    rcases List.mem_or_eq_of_mem_set hc with hm | rfl
    · exact h c hm hcc
    · exact (hstep.committed hcc).elim (h pc (List.mem_of_getElem? hk)) id
  | owner hstep hw =>
    rcases hstep.keeps_alive ha.begun with hal | hcrit
    · exact hal ▸ h c hc hcc
    · have hcc' := number_eq_zero.mp (ha.owner_holds hcrit).2.2 c hc
      cases c <;> simp_all

private theorem Attended.move (h : Attended s) (hcom : Committed s) (hn : 1 ≤ n) (hs : Sound n s)
    (hm : Move n s t) : Attended t := by
  have ha := hs.accounted
  intro hne
  cases hm with
  | @worker _ _ _ pc' _ _ _ hk hstep hw =>
    obtain ⟨hlist, hle | hnil⟩ := hstep.awake
    · have hpos := h (hlist hne)
      have hset := number_set WorkerPc.awake pc' hk
      have hmono := perform_awake hw
      simp only
      omega
    · exact absurd hnil hne
  | wake hw =>
    obtain ⟨hk, rfl⟩ := wakeWorker_eq_some.mp hw
    have hpos := h hne
    have hset := number_set WorkerPc.awake .woken hk
    simp only [WorkerPc.awake, Bool.toInt_true, Bool.toInt_false] at hset
    simp only
    omega
  | submit => simpa using h hne
  | @call k _ pc pc' σ _ _ hk hstep hw =>
    have hmem := List.mem_of_getElem? hk
    have hset := number_set CallPc.pending pc' hk
    have hmono := perform_awake hw
    have h0 := number_nonneg WorkerPc.awake s.workers
    have h1 := number_nonneg CallPc.pending (s.calls.set k pc')
    rcases hstep.pending with hpend | ⟨hlist, hpend⟩ | ⟨⟨w, rfl⟩, he⟩
    · have hlt := (List.getElem?_eq_some_iff.mp hk).1
      have hin : pc' ∈ s.calls.set k pc' := List.mem_set hlt pc'
      have hpos := number_pos.mpr ⟨pc', hin, hpend⟩
      simp only
      omega
    · have hpos := h (hlist ▸ hne)
      have h2 := toInt_nonneg pc'.pending
      rw [hpend, Bool.toInt_false] at hset
      simp only
      omega
    · have hi := hs.phased.initialised_of_call ha.begun hmem
      obtain ⟨-, hfree, -⟩ := ha.call_holds hmem rfl
      have hpos := hs.attended_after_notify hn hi (hcom _ hmem rfl) hfree he hw
      simp only
      omega
  | owner hstep hw =>
    obtain ⟨hlist, -⟩ := hstep.works ha.begun
    have hpos := h (hlist ▸ hne)
    have hmono := perform_awake hw
    simp only
    omega

end Global

section Runs
variable [DecidableEq ω] {n : Nat} {old : WorkqueueStruct ω} {name : String} {s : State ω}

theorem reachable_committed (h : Reachable (step n) (opened n old name) s) :
    Accounted n s ∧ Committed s :=
  h.invariant (P := fun s => Accounted n s ∧ Committed s)
    ⟨(opened_sound n old name).accounted, nofun⟩
    fun hi he => ⟨hi.1.move (step_move he), hi.2.move hi.1 (step_move he)⟩

theorem reachable_attended (hn : 1 ≤ n) (h : Reachable (step n) (opened n old name) s) :
    Sound n s ∧ Committed s ∧ Attended s :=
  h.invariant (P := fun s => Sound n s ∧ Committed s ∧ Attended s)
    ⟨opened_sound n old name, nofun, fun hne => absurd rfl hne⟩
    fun hi he => ⟨hi.1.move hn (step_move he), hi.2.1.move hi.1.accounted (step_move he),
      hi.2.2.move hi.2.1 hn hi.1 (step_move he)⟩

/-- Whenever the lock is free and a work is queued, some worker has yet to start, is busy
with a work, or has been woken. -/
theorem queued_work_is_attended (hn : 1 ≤ n) (h : Reachable (step n) (initial old name) s)
    (hi : s.owner.initialised) (hl : s.shared.locked = false) (hw : s.shared.workList ≠ []) :
    ∃ pc ∈ s.workers, pc = .created ∨ (∃ w, pc = .runFunc w ∨ pc = .clearWq w) ∨ pc = .relock ∨
      pc = .woken := by
  obtain ⟨hs, -, hatt⟩ := reachable_attended hn (reachable_initialised h hi)
  have hpos := hatt hw
  have hpend : number CallPc.pending s.calls = 0 := number_eq_zero.mpr fun pc hpc => by
    have := hs.accounted.call_outside hl hpc
    cases pc <;> simp_all
  rw [hpend, add_zero] at hpos
  obtain ⟨pc, hpc, haw⟩ := number_pos.mp hpos
  have hout := hs.accounted.worker_outside hl hpc
  refine ⟨pc, hpc, ?_⟩
  cases pc <;> simp_all

theorem queued_work_wakes_worker : ∃ s : State Nat, Reachable (step 1) (initial unset "wq") s ∧
    s.shared.workList = [5] ∧ s.workers = [.woken] ∧ ∃ pc ∈ s.workers, pc = .created ∨
      (∃ w, pc = .runFunc w ∨ pc = .clearWq w) ∨ pc = .relock ∨ pc = .woken := by
  have hr := Reachable.get (step 1) (initial unset "wq")
    (List.flatten [.replicate 7 (.owner true none), .replicate 7 (.worker 0 true),
      .submit 5 :: .replicate 5 (.call 0 (some 0))]) rfl
  exact ⟨_, hr, rfl, rfl, queued_work_is_attended le_rfl hr rfl rfl (List.cons_ne_nil 5 [])⟩

end Runs
end CommonProject.Workqueue
