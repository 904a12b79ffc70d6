import CommonProject.Workqueue.Wakeup

/-! The owner outlives every worker it waits for. -/
namespace CommonProject.Workqueue
open Foundations
variable {ω : Type}

@[simp] def OwnerPc.waited : OwnerPc → Bool
  | .exitLock _ | .exitUnlock _ | .warnIdle | .condDestroy | .mutexDestroy | .destroyed
  | .lockDestroy _ | .failed _ => true
  | _ => false

/-- `wait_worker_exit` has read a reference count of 0, and has had the lock since. -/
@[simp] def OwnerPc.joined : OwnerPc → Bool
  | .exitUnlock _ | .warnIdle | .condDestroy | .mutexDestroy | .destroyed | .lockDestroy _
  | .failed _ => true
  | _ => false

/-- `destroy_workqueue` has seen the list empty, with the queue already closed. -/
@[simp] def OwnerPc.drained : OwnerPc → Bool
  | .drainCount | .warnIdle | .condDestroy | .mutexDestroy | .destroyed => true
  | .exitTest c | .exitSignal c | .exitLock c | .exitUnlock c => c.created.isNone
  | _ => false

structure Outlived (s : State ω) : Prop where
  refs : s.owner.waited → s.shared.refCount = 0
  joined : s.owner.joined → ∀ pc ∈ s.workers, pc = .exited

section Local
variable {n : Nat} {ok : Bool} {σ σ' : Shared ω} {e : Effect}

private theorem OwnerAct.waited {o o' : OwnerPc} (h : OwnerAct n ok σ o σ' o' e)
    (hb : o.begun) (hw : o'.waited) :
    (o.waited ∨ σ.refCount = 0) ∧ σ'.refCount = σ.refCount ∧ e ≠ .spawn := by
  cases h
  all_goals simp_all [Shared.unlock, Shared.warn]

private theorem OwnerAct.joined {o o' : OwnerPc} (h : OwnerAct n ok σ o σ' o' e)
    (hb : o.begun) (hj : o'.joined) : o.joined ∨ o.waited ∧ σ.locked = false := by
  cases h
  all_goals simp_all

private theorem OwnerAct.drained {o o' : OwnerPc} (h : OwnerAct n ok σ o σ' o' e)
    (hb : o.begun) (hd : o'.drained) : σ'.workList = σ.workList ∧ (o.drained ∨ σ.workList = []) := by
  cases h
  all_goals simp_all [Shared.unlock, Shared.useCond, Shared.warn]

private theorem OwnerPc.closed_of_drained {o : OwnerPc} (h : o.drained) : o.closed := by
  cases o <;> simp_all

private theorem OwnerAct.stays_joined {o o' : OwnerPc} (h : OwnerAct n ok σ o σ' o' e)
    (hj : o.joined) : o'.joined := by
  cases h
  all_goals simp_all

private theorem OwnerPc.waited_of_joined {o : OwnerPc} (h : o.joined) : o.waited := by
  cases o <;> simp_all

private theorem OwnerPc.not_creating_of_waited {o : OwnerPc} (h : o.waited) :
    o.creating = false := by
  cases o <;> simp_all

variable [DecidableEq ω]

private theorem perform_unblocked {target : Option Nat} {ws ws' : List (WorkerPc ω)}
    (h : perform target ws e = some ws') (hb : .blocked ∉ ws) (he : e ≠ .spawn) : ws' = ws := by
  cases e with
  | none => exact (Option.some.inj h).symm
  | spawn => exact absurd rfl he
  | signal =>
    cases target with
    | some k =>
      obtain ⟨hk, -⟩ := wakeWorker_eq_some.mp h
      exact absurd (List.mem_of_getElem? hk) hb
    | none =>
      simp only [perform, if_neg hb] at h
      exact (Option.some.inj h).symm

/-- A closed queue takes no works. -/
private theorem CallAct.closed {pc pc' : CallPc ω} (h : CallAct σ pc σ' pc' e)
    (hal : σ.alive = false) : σ'.workList = σ.workList := by
  cases h
  all_goals simp_all [Shared.unlock, Shared.useCond]

/-- A worker without a reference has at most the lock to give back. -/
private theorem WorkerAct.unreferenced {pc pc' : WorkerPc ω} (h : WorkerAct ok σ pc σ' pc' e)
    (hr : pc.refs = 0) : pc ≠ .exited ∧ pc' = .exited ∧ e = .none ∧ σ'.refCount = σ.refCount := by
  cases pc with
  | leaveUnlock =>
    cases h
    simp [Shared.unlock]
  | exited => cases h
  | _ => simp at hr

end Local

section Global
variable {n : Nat} {s t : State ω}

private theorem Accounted.unreferenced (ha : Accounted n s) (ho : s.owner.creating = false)
    (hr : s.shared.refCount = 0) {pc : WorkerPc ω} (hm : pc ∈ s.workers) : pc.refs = 0 := by
  have hle := le_total WorkerPc.refs_nonneg hm
  have h0 := pc.refs_nonneg
  have heq := ha.refs
  rw [ho, Bool.toInt_false] at heq
  omega

private theorem blocked_not_mem {ws : List (WorkerPc ω)} (h : ∀ pc ∈ ws, pc.refs = 0) :
    .blocked ∉ ws :=
  fun hm => by simpa using h _ hm

theorem number_exited {P : WorkerPc ω → Bool} (hP : P .exited = false) {ws : List (WorkerPc ω)}
    (h : ∀ pc ∈ ws, pc = .exited) : number P ws = 0 :=
  number_eq_zero.mpr fun pc hpc => by rw [h pc hpc, hP]

private theorem Committed.uncommitted (hcom : Committed s) (hal : s.shared.alive = false)
    {pc : CallPc ω} (hm : pc ∈ s.calls) : pc.committed = false := by
  by_contra hc
  have hal' := hcom pc hm ((Bool.not_eq_false _).mp hc)
  rw [hal] at hal'
  cases hal'

/-- Once closed, a submission that will return 0 has returned it. -/
private theorem Committed.succeeded_of_closed [DecidableEq ω] (hcom : Committed s)
    (hal : s.shared.alive = false) (w : ω) :
    number (CallPc.succeeded w) s.calls = number (CallPc.accepts w) s.calls :=
  number_congr fun pc hpc => by
    have := hcom.uncommitted hal hpc
    cases pc <;> simp_all

variable [DecidableEq ω]

private theorem Outlived.move (h : Outlived s) (ha : Accounted n s) (hm : Move n s t) :
    Outlived t := by
  have hun : s.owner.waited → ∀ pc ∈ s.workers, pc.refs = 0 := fun hw pc hpc =>
    ha.unreferenced (OwnerPc.not_creating_of_waited hw) (h.refs hw) hpc
  cases hm with
  | worker hk hs hw =>
    have hmem := List.mem_of_getElem? hk
    refine ⟨fun ho => ?_, fun ho => ?_⟩
    · obtain ⟨-, -, -, hr⟩ := hs.unreferenced (hun ho _ hmem)
      exact hr.trans (h.refs ho)
    · have hpc := h.joined ho _ hmem
      subst hpc
      cases hs
  | wake hw =>
    refine ⟨h.refs, fun ho => ?_⟩
    obtain ⟨hk, -⟩ := wakeWorker_eq_some.mp hw
    cases h.joined ho _ (List.mem_of_getElem? hk)
  | submit => exact ⟨h.refs, h.joined⟩
  | call hk hs hw =>
    obtain ⟨-, -, -, hr, he⟩ := hs.setup
    refine ⟨fun ho => hr.trans (h.refs ho), fun ho => ?_⟩
    have hnb := blocked_not_mem (hun (OwnerPc.waited_of_joined ho))
    rw [perform_unblocked hw hnb he]
    exact h.joined ho
  | owner hs hw =>
    refine ⟨fun ho => ?_, fun ho => ?_⟩
    · obtain ⟨hold, hr, -⟩ := hs.waited ha.begun ho
      exact hr.trans (hold.elim h.refs id)
    · obtain ⟨-, -, he⟩ := hs.waited ha.begun (OwnerPc.waited_of_joined ho)
      rcases hs.joined ha.begun ho with hj | ⟨hwait, hl⟩
      · rw [perform_unblocked hw (blocked_not_mem (hun (OwnerPc.waited_of_joined hj))) he]
        exact h.joined hj
      · rw [perform_unblocked hw (blocked_not_mem (hun hwait)) he]
        intro pc hpc
        have hout := ha.worker_outside hl hpc
        have hr := hun hwait pc hpc
        cases pc <;> simp_all

private theorem drained_move (h : s.owner.drained → s.shared.workList = []) (ha : Accounted n s)
    (hp : Phased n s) (hm : Move n s t) : t.owner.drained → t.shared.workList = [] := by
  intro hd
  cases hm with
  | worker hk hs hw =>
    by_contra hne
    exact hs.awake.1 hne (h hd)
  | wake hw => exact h hd
  | submit => exact h hd
  | call hk hs hw =>
    have hal : s.shared.alive = false := by rw [hp.alive, OwnerPc.closed_of_drained hd]; rfl
    exact (hs.closed hal).trans (h hd)
  | owner hs hw =>
    obtain ⟨hlist, hold⟩ := hs.drained ha.begun hd
    exact hlist.trans (hold.elim h id)

private theorem exited_step (h : ∀ pc ∈ s.workers, pc = .exited) (k : Nat) (ok : Bool) :
    step n s (.worker k ok) = none ∧ step n s (.wake k) = none := by
  cases hk : s.workers[k]? with
  | none => simp [step, wakeWorker, hk]
  | some pc =>
    obtain rfl := h pc (List.mem_of_getElem? hk)
    simp [step, wakeWorker, hk, workerStep]

private theorem joined_move (h : s.owner.joined) (hm : Move n s t) : t.owner.joined := by
  cases hm with
  | owner hs => exact hs.stays_joined h
  | _ => exact h

end Global

section Runs
variable [DecidableEq ω] {n : Nat} {old : WorkqueueStruct ω} {name : String} {s : State ω}

theorem reachable_outlived (h : Reachable (step n) (opened n old name) s) :
    Accounted n s ∧ Outlived s :=
  h.invariant (P := fun s => Accounted n s ∧ Outlived s)
    ⟨(opened_sound n old name).accounted, nofun, nofun⟩
    fun hi he => ⟨hi.1.move (step_move he), hi.2.move hi.1 (step_move he)⟩

/-- From the end of `wait_worker_exit` on no worker takes a step. -/
private theorem no_worker_after_joined (h : Reachable (step n) (opened n old name) s)
    (hj : s.owner.joined) {t : State ω} (ht : Reachable (step n) s t) :
    (∀ pc ∈ t.workers, pc = .exited) ∧
    ∀ k ok, step n t (.worker k ok) = none ∧ step n t (.wake k) = none := by
  have hj' : t.owner.joined :=
    ht.invariant (P := fun s => s.owner.joined) hj fun hs he => joined_move hs (step_move he)
  have hall := (reachable_outlived (h.trans ht)).2.joined hj'
  exact ⟨hall, fun k ok => exited_step hall k ok⟩

private theorem reachable_drained (h : Reachable (step n) (opened n old name) s) :
    Accounted n s ∧ Phased n s ∧ (s.owner.drained → s.shared.workList = []) :=
  h.invariant (P := fun s => Accounted n s ∧ Phased n s ∧ (s.owner.drained → s.shared.workList = []))
    ⟨(opened_sound n old name).accounted, (opened_sound n old name).phased, nofun⟩
    fun hi he => ⟨hi.1.move (step_move he), hi.2.1.move hi.1 (step_move he),
      drained_move hi.2.2 hi.1 hi.2.1 (step_move he)⟩

/-- When `destroy_workqueue` destroys the condition, the function of every work has been called
and has ended as often as the work was accepted, the counters are 0, and all workers have left
for good. -/
theorem shutdown_drains (h : Reachable (step n) (initial old name) s)
    (ho : s.owner = .condDestroy) :
    s.shared.workList = [] ∧
    (∀ w, Executed w s) ∧
    s.shared.nrWorker = 0 ∧ s.shared.nrIdleWorker = 0 ∧ s.shared.refCount = 0 ∧
    ∀ t, Reachable (step n) s t → (∀ pc ∈ t.workers, pc = .exited) ∧
      ∀ k ok, step n t (.worker k ok) = none ∧ step n t (.wake k) = none := by
  have hr := reachable_initialised h (by rw [ho]; rfl)
  obtain ⟨ha, hp, hdrained⟩ := reachable_drained hr
  have hd := (reachable_delivered hr).2
  have hcom := (reachable_committed hr).2
  have hout := (reachable_outlived hr).2
  have hall := hout.joined (by rw [ho]; rfl)
  have hal : s.shared.alive = false := by rw [hp.alive, ho]; rfl
  have hlist : s.shared.workList = [] := hdrained (by rw [ho]; rfl)
  refine ⟨hlist, fun w => ?_, ?_, ?_, hout.refs (by rw [ho]; rfl), fun t ht => ?_⟩
  · have hheld := hd.held w
    have hnon := number_nonneg (CallPc.storing w) s.calls
    have hwq := toInt_nonneg (s.shared.wq w)
    rw [number_exited rfl hall, hlist, List.count_nil] at hheld
    exact hd.executed ha (toInt_eq_zero.mp (by omega)) (hcom.succeeded_of_closed hal w)
  · rw [ha.started, number_exited rfl hall]
  · rw [ha.idle, number_exited rfl hall]
  · exact no_worker_after_joined hr (by rw [ho]; rfl) ht

theorem one_work_drained : ∃ s : State Nat, Reachable (step 1) (initial unset "wq") s ∧
    s.owner = .condDestroy ∧ s.shared.called = [5] ∧ s.shared.finished = [5] ∧
    s.shared.refCount = 0 := by
  have hr := Reachable.get (step 1) (initial unset "wq")
    (List.flatten [.replicate 7 (.owner true none), .replicate 7 (.worker 0 true),
      .submit 5 :: .replicate 5 (.call 0 (some 0)), .replicate 11 (.worker 0 true),
      .replicate 7 (.owner true (some 0)), .replicate 6 (.worker 0 true),
      .replicate 6 (.owner true none)]) (by decide +kernel)
  exact ⟨_, hr, rfl, rfl, rfl, (shutdown_drains hr rfl).2.2.2.2.1⟩

end Runs
end CommonProject.Workqueue
