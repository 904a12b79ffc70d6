import CommonProject.Foundations.Progress
import CommonProject.Workqueue.Shutdown

/-! What the threads of the queue have to do comes to an end, and they rest with all work done. -/
namespace CommonProject.Workqueue
open Foundations
variable {ω : Type}

/-- A bound on the steps until a worker sleeps or leaves. A sleeper has steps before it only
once the queue is closed, since then it will not sleep again. -/
@[simp] def WorkerPc.rank (closed : Bool) : WorkerPc ω → Int
  | .exited => 0
  | .leaveUnlock => 1
  | .leaveRef => 2
  | .leaveCount => 3
  | .surplusTest => if closed then 10 else 4
  | .checkAlive => 5
  | .fetch => 6
  | .wakeUp | .unspawn => 7
  | .woken | .startCount => 8
  | .startIdle => 9
  | .created => 10
  | .spawn => 17
  | .grow => 18
  | .relock => 19
  | .clearWq _ => 20
  | .runFunc _ => 21
  | .unlockRun _ => 22
  | .blocked => if closed then 9 else 0

/-- A call's own steps, the execution it may cause, and the wake-up it may send. -/
@[simp] def CallPc.rank : CallPc ω → Int
  | .lock _ => 30
  | .insert _ => 29
  | .storeWq _ => 11
  | .notify _ => 10
  | .unlock _ _ => 1
  | .returned _ _ => 0

/-- A bound on the steps of workers and calls that are still to come. -/
def State.effort (closed : Bool) (s : State ω) : Int :=
  total (WorkerPc.rank closed) s.workers + 17 * s.shared.workList.length +
    total CallPc.rank s.calls

private theorem WorkerPc.rank_nonneg (closed : Bool) (pc : WorkerPc ω) : 0 ≤ pc.rank closed := by
  cases pc <;> cases closed <;> simp

private theorem CallPc.rank_nonneg (pc : CallPc ω) : 0 ≤ pc.rank := by
  cases pc <;> simp

theorem State.effort_nonneg (closed : Bool) (s : State ω) : 0 ≤ s.effort closed := by
  have hw := total_nonneg (WorkerPc.rank_nonneg closed) s.workers
  have hc := total_nonneg CallPc.rank_nonneg s.calls
  unfold State.effort
  omega

@[simp] def Event.turn : Event ω → Bool
  | .worker _ _ | .call _ _ => true
  | _ => false

@[simp] def Event.submits : Event ω → Bool
  | .submit _ => true
  | _ => false

/-- A sleeper is woken by nobody or by the owner. -/
@[simp] def Event.wakes : Event ω → Bool
  | .wake _ | .owner _ (some _) => true
  | _ => false

@[simp] def OwnerPc.toCreate (n : Nat) : OwnerPc → Nat
  | .loop i | .create i => n - i
  | _ => 0

section Local
variable [DecidableEq ω] {n : Nat} {ok closed : Bool} {σ σ' : Shared ω} {e : Effect}
  {target : Option Nat} {ws ws' : List (WorkerPc ω)}

private theorem WorkerAct.rank {pc pc' : WorkerPc ω} (h : WorkerAct ok σ pc σ' pc' e)
    (hc : closed → σ.alive = false) :
    (pc'.rank closed + 17 * σ'.workList.length + (if e = .spawn then 10 else 0) + 1 : Int) ≤
      pc.rank closed + 17 * σ.workList.length := by
  cases h
  -- how much a sleeper may still have to do depends on whether the queue is closed
  case wait =>
    simp only [WorkerPc.rank, Shared.unlock, Shared.useCond, reduceCtorEq, if_false]
    split <;> omega
  all_goals simp_all [Shared.unlock, Shared.warn]
  all_goals omega

private theorem CallAct.rank {pc pc' : CallPc ω} (h : CallAct σ pc σ' pc' e) :
    (pc'.rank + 17 * σ'.workList.length + (if e = .signal then 8 else 0) + 1 : Int) ≤
      pc.rank + 17 * σ.workList.length := by
  cases h
  all_goals simp_all [Shared.unlock, Shared.useCond]
  all_goals omega

omit [DecidableEq ω] in
private theorem OwnerAct.toCreate {o o' : OwnerPc} (h : OwnerAct n ok σ o σ' o' e)
    (hb : o.begun) (hc : o.creating → ∀ i, o.setup = some i → i < n) :
    o'.toCreate n + (if e = .spawn then 1 else 0) ≤ o.toCreate n := by
  cases h
  all_goals simp_all
  omega

variable (closed) in
theorem wakeWorker_rank {k : Nat} (h : wakeWorker ws k = some ws') :
    total (WorkerPc.rank closed) ws' =
      total (WorkerPc.rank closed) ws + if closed then -1 else 8 := by
  obtain ⟨hk, rfl⟩ := wakeWorker_eq_some.mp h
  rw [total_set _ _ hk]
  cases closed <;> simp

variable (closed) in
private theorem perform_rank (h : perform target ws e = some ws') :
    total (WorkerPc.rank closed) ws' ≤ total (WorkerPc.rank closed) ws +
      (if e = .spawn then 10 else 0) + if e = .signal ∧ target.isSome then 8 else 0 := by
  cases e with
  | none => cases h; simp
  | spawn => cases h; simp
  | signal =>
    cases target with
    | some k =>
      rw [wakeWorker_rank closed h]
      cases closed <;> simp
    | none =>
      simp only [perform] at h
      split at h
      · cases h
      · cases h; simp

end Local

section Global
variable [DecidableEq ω] {n : Nat} {s t : State ω} {closed : Bool}

theorem worker_effort {k : Nat} {ok : Bool} (h : step n s (.worker k ok) = some t)
    (hc : closed → s.shared.alive = false) : t.effort closed + 1 ≤ s.effort closed := by
  obtain ⟨pc, pc', σ, e, ws, hpc, hs, hw, rfl⟩ := step_worker_inv h
  have hrank := hs.rank hc
  have hp := perform_rank closed hw
  rw [total_set _ _ hpc, if_neg (by simp : ¬ (e = .signal ∧ (none : Option Nat).isSome))] at hp
  simp only [State.effort]
  omega

theorem call_effort {k : Nat} {target : Option Nat} (h : step n s (.call k target) = some t) :
    t.effort closed + 1 ≤ s.effort closed := by
  obtain ⟨pc, pc', σ, e, ws, hpc, hs, hw, rfl⟩ := step_call_inv h
  have hrank := hs.rank
  have hp := perform_rank closed hw
  rw [if_neg hs.setup.2.2.2.2] at hp
  have hsig : (if e = .signal ∧ target.isSome then 8 else 0 : Int) ≤
      if e = .signal then 8 else 0 := by
    split <;> split <;> simp_all
  simp only [State.effort, total_set CallPc.rank pc' hpc]
  omega

theorem wake_effort {k : Nat} (h : step n s (.wake k) = some t) :
    t.effort closed = s.effort closed + if closed then -1 else 8 := by
  obtain ⟨ws, hw, rfl⟩ := step_wake_inv h
  have hrank := wakeWorker_rank closed hw
  simp only [State.effort]
  omega

private theorem submit_effort {work : ω} (h : step n s (.submit work) = some t) :
    t.effort closed = s.effort closed + 30 := by
  obtain ⟨-, rfl⟩ := step_submit_inv h
  simp [State.effort]
  omega

private theorem owner_effort {ok : Bool} {target : Option Nat}
    (h : step n s (.owner ok target) = some t) (ha : Accounted n s) (hp : Phased n s) :
    t.effort closed + 10 * t.owner.toCreate n ≤
      s.effort closed + 10 * s.owner.toCreate n + if target.isSome then 8 else 0 := by
  obtain ⟨o', σ, e, ws, hs, hw, rfl⟩ := step_owner_inv h
  obtain ⟨hlist, -⟩ := hs.works ha.begun
  have hcreate := hs.toCreate ha.begun hp.creating
  have hrank := perform_rank closed hw
  have hsig : (if e = .signal ∧ target.isSome then 8 else 0 : Int) ≤
      if target.isSome then 8 else 0 := by
    split <;> split <;> simp_all
  simp only [State.effort, hlist]
  split at hcreate <;> simp_all <;> omega

end Global

section Resting
variable {n : Nat} {s : State ω}

/-- Not waiting for the lock while another thread has it, nor for anything else. -/
@[simp] def WorkerPc.ready (locked : Bool) : WorkerPc ω → Bool
  | .blocked | .exited => false
  | .created | .relock | .woken => !locked
  | _ => true

@[simp] def CallPc.ready (locked : Bool) : CallPc ω → Bool
  | .lock _ => !locked
  | .returned _ _ => false
  | _ => true

/-- All accepted works are executed, and nobody but the owner has anything left to do. -/
structure Rested [DecidableEq ω] (s : State ω) : Prop where
  workList : s.shared.workList = []
  flushed : ∀ w, flushReturns s.shared w
  executed : ∀ w, Executed w s
  calls : ∀ pc ∈ s.calls, ∃ w r, pc = .returned w r
  workers : ∀ pc ∈ s.workers, pc = .blocked ∨ pc = .exited

/-- The lock is free when no worker or call can go on and the owner does not have it. -/
theorem Accounted.unlocked (ha : Accounted n s) (ho : s.owner.critical = false)
    (hw : ∀ pc ∈ s.workers, pc.ready s.shared.locked = false)
    (hc : ∀ pc ∈ s.calls, pc.ready s.shared.locked = false) : s.shared.locked = false := by
  have hworkers : number WorkerPc.critical s.workers = 0 := number_eq_zero.mpr fun pc hpc => by
    have := hw pc hpc
    cases pc <;> simp_all
  have hcalls : number CallPc.critical s.calls = 0 := number_eq_zero.mpr fun pc hpc => by
    have := hc pc hpc
    cases pc <;> simp_all
  have hl := ha.lock
  rw [hworkers, hcalls, ho] at hl
  exact toInt_eq_zero.mp hl.symm

private theorem resting_worker {pc : WorkerPc ω} (h : pc.ready false = false) :
    pc = .blocked ∨ pc = .exited := by
  cases pc <;> simp_all

theorem resting_call {pc : CallPc ω} (h : pc.ready false = false) :
    ∃ w r, pc = .returned w r := by
  cases pc <;> simp_all

variable [DecidableEq ω]

private theorem workerStep_of_ready (ok : Bool) {σ : Shared ω} {pc : WorkerPc ω}
    (h : pc.ready σ.locked) : ∃ σ' pc' e, workerStep ok σ pc = some (σ', pc', e) ∧ e ≠ .signal := by
  fun_cases workerStep ok σ pc <;> simp_all [Shared.lock]

private theorem callStep_of_ready {σ : Shared ω} {pc : CallPc ω} (h : pc.ready σ.locked) :
    ∃ σ' pc' e, callStep σ pc = some (σ', pc', e) := by
  fun_cases callStep σ pc <;> simp_all [Shared.lock]

theorem perform_possible (ws : List (WorkerPc ω)) (e : Effect) :
    ∃ target, (perform target ws e).isSome := by
  cases e with
  | none => exact ⟨none, rfl⟩
  | spawn => exact ⟨none, rfl⟩
  | signal =>
    by_cases hb : .blocked ∈ ws
    · obtain ⟨k, hk⟩ := List.getElem?_of_mem hb
      exact ⟨some k, by simp [perform, wakeWorker, hk]⟩
    · exact ⟨none, by simp [perform, hb]⟩

theorem worker_enabled {k : Nat} {pc : WorkerPc ω} (hk : s.workers[k]? = some pc)
    (hr : pc.ready s.shared.locked) (ok : Bool) : (step n s (.worker k ok)).isSome := by
  obtain ⟨σ, pc', e, hs, he⟩ := workerStep_of_ready ok hr
  cases e with
  | signal => exact absurd rfl he
  | _ => simp [step, hk, hs, perform]

theorem call_enabled {k : Nat} {pc : CallPc ω} (hk : s.calls[k]? = some pc)
    (hr : pc.ready s.shared.locked) : ∃ target, (step n s (.call k target)).isSome := by
  obtain ⟨σ, pc', e, hs⟩ := callStep_of_ready hr
  obtain ⟨target, hp⟩ := perform_possible s.workers e
  obtain ⟨ws, hws⟩ := Option.isSome_iff_exists.mp hp
  exact ⟨target, by simp [step, hk, hs, hws]⟩

end Resting

section Runs
variable [DecidableEq ω] {n : Nat} {old : WorkqueueStruct ω} {name : String} {s t : State ω}

theorem rested_of_unready (hn : 1 ≤ n) (h : Reachable (step n) (opened n old name) s)
    (ho : s.owner.critical = false) (hw : ∀ pc ∈ s.workers, pc.ready s.shared.locked = false)
    (hc : ∀ pc ∈ s.calls, pc.ready s.shared.locked = false) : Rested s := by
  obtain ⟨hsound, -, hatt⟩ := reachable_attended hn h
  have hd := (reachable_delivered h).2
  have hl := hsound.accounted.unlocked ho hw hc
  rw [hl] at hw hc
  have hrest : ∀ pc ∈ s.workers, pc = .blocked ∨ pc = .exited := fun pc hpc =>
    resting_worker (hw pc hpc)
  have hret : ∀ pc ∈ s.calls, ∃ w r, pc = .returned w r := fun pc hpc => resting_call (hc pc hpc)
  have hlist : s.shared.workList = [] := by
    by_contra hne
    have hawake : number WorkerPc.awake s.workers = 0 := number_eq_zero.mpr fun pc hpc => by
      rcases hrest pc hpc with rfl | rfl <;> rfl
    have hpend : number CallPc.pending s.calls = 0 := number_eq_zero.mpr fun pc hpc => by
      obtain ⟨w, r, rfl⟩ := hret pc hpc
      rfl
    have hpos := hatt hne
    omega
  have hnull : ∀ w, s.shared.wq w = false := by
    intro w
    have hheld := hd.held w
    have hholds : number (WorkerPc.holds w) s.workers = 0 := number_eq_zero.mpr fun pc hpc => by
      rcases hrest pc hpc with rfl | rfl <;> rfl
    have hnon := number_nonneg (CallPc.storing w) s.calls
    have hwq := toInt_nonneg (s.shared.wq w)
    rw [hlist, List.count_nil, hholds] at hheld
    exact toInt_eq_zero.mp (by omega)
  refine ⟨hlist, fun w => by simp [flushReturns, hnull], fun w => ?_, hret, hrest⟩
  exact hd.executed hsound.accounted (hnull w) <|
    number_congr fun pc hpc => by obtain ⟨x, r, rfl⟩ := hret pc hpc; simp

/-- Work in progress: what a run has left to do, with the workers still to be created. -/
def State.potential (n : Nat) (s : State ω) : Int :=
  if s.owner.begun then s.effort false + 10 * s.owner.toCreate n else 10 * n

omit [DecidableEq ω] in
private theorem State.potential_of_not_begun (h : s.owner.begun = false) : s.potential n = 10 * n :=
  if_neg (by rw [h]; exact Bool.false_ne_true)

/-- What an event may add to the work in progress. -/
@[simp] def Event.grant (e : Event ω) : Int := 30 * e.submits.toInt + 8 * e.wakes.toInt

private theorem Opening.potential_step (ho : Opening n old name s) {e : Event ω}
    (h : step n s e = some t) : t.potential n + e.turn.toInt ≤ s.potential n + e.grant := by
  have hturn : e.turn = false := by
    cases e with
    | worker k ok =>
      obtain ⟨pc, -, -, -, -, hk, -⟩ := step_worker_inv h
      simp [ho.workers] at hk
    | call k target =>
      obtain ⟨pc, -, -, -, -, hk, -⟩ := step_call_inv h
      simp [ho.calls] at hk
    | _ => rfl
  have hs := State.potential_of_not_begun (n := n) ho.notBegun
  have ht : t.potential n = 10 * n := by
    rcases ho.move (step_move h) with ho' | rfl
    · exact State.potential_of_not_begun ho'.notBegun
    · simp [State.potential, State.effort, opened]
  have h1 := toInt_nonneg e.submits
  have h2 := toInt_nonneg e.wakes
  rw [hs, ht, hturn, Bool.toInt_false, Event.grant]
  omega

private theorem Accounted.potential_step (ha : Accounted n s) (hp : Phased n s) {e : Event ω}
    (h : step n s e = some t) : t.potential n + e.turn.toInt ≤ s.potential n + e.grant := by
  have hb := ha.begun
  have hb' := (ha.move (step_move h)).begun
  simp only [State.potential, hb, hb', if_true]
  cases e with
  | worker k ok =>
    have heff : t.effort false + 1 ≤ s.effort false := worker_effort h nofun
    obtain ⟨pc, pc', σ, e, ws, -, -, -, rfl⟩ := step_worker_inv h
    simp
    omega
  | wake k =>
    have heff : t.effort false = s.effort false + 8 := wake_effort h
    obtain ⟨ws, -, rfl⟩ := step_wake_inv h
    simp_all
    omega
  | submit work =>
    have heff : t.effort false = s.effort false + 30 := submit_effort h
    obtain ⟨-, rfl⟩ := step_submit_inv h
    simp
    omega
  | call k target =>
    have heff : t.effort false + 1 ≤ s.effort false := call_effort h
    obtain ⟨pc, pc', σ, e, ws, -, -, -, rfl⟩ := step_call_inv h
    simp
    omega
  | owner ok target =>
    have heff : t.effort false + 10 * t.owner.toCreate n ≤
        s.effort false + 10 * s.owner.toCreate n + if target.isSome then 8 else 0 :=
      owner_effort h ha hp
    cases target <;> simp_all

/-- In every run, the workers and the calls together take no more than thirty steps for each
submission, eight for each wake-up that is not a call's, and ten for each worker that
`init_workqueue` creates: none of them ever spins. -/
theorem turns_bounded {es : List (Event ω)} (h : run (step n) (initial old name) es = some t) :
    es.countP Event.turn ≤
      10 * n + 30 * es.countP Event.submits + 8 * es.countP Event.wakes := by
  have hinv : ∀ ⦃s : State ω⦄ ⦃e t⦄, Opening n old name s ∨ Accounted n s ∧ Phased n s →
      step n s e = some t → Opening n old name t ∨ Accounted n t ∧ Phased n t := by
    rintro s e t (ho | ⟨ha, hp⟩) he
    · rcases ho.move (step_move he) with ho | rfl
      · exact .inl ho
      · exact .inr ⟨(opened_sound n old name).accounted, (opened_sound n old name).phased⟩
    · exact .inr ⟨ha.move (step_move he), hp.move ha (step_move he)⟩
  have hpay : ∀ ⦃s : State ω⦄ ⦃e t⦄, Opening n old name s ∨ Accounted n s ∧ Phased n s →
      step n s e = some t → t.potential n + e.turn.toInt ≤ s.potential n + e.grant := by
    rintro s e t (ho | ⟨ha, hp⟩) he
    · exact ho.potential_step he
    · exact ha.potential_step hp he
  have hrun := run_amortised hinv hpay (.inl ⟨rfl, rfl, rfl, .inl ⟨rfl, rfl⟩⟩) h
  have hnon : 0 ≤ t.potential n := by
    have heff := t.effort_nonneg false
    unfold State.potential
    split <;> omega
  have hgrant : total Event.grant es =
      30 * number Event.submits es + 8 * number Event.wakes es := by
    rw [number, number, ← total_mul, ← total_mul, ← total_add]
    rfl
  have hcost : total (fun e : Event ω => e.turn.toInt) es = number Event.turn es := rfl
  have hs : (initial old name).potential n = 10 * n := rfl
  rw [hgrant, hcost, hs, number_eq_countP, number_eq_countP, number_eq_countP] at hrun
  omega

def submitted : State Nat :=
  outcome (step 1) (initial unset "wq") (List.replicate 7 (.owner true none) ++ [.submit 5])

def turnsOfOne : List (Event Nat) :=
  List.flatten [.replicate 7 (.worker 0 true), .replicate 5 (.call 0 (some 0)),
    .replicate 11 (.worker 0 true)]

theorem one_work_takes_its_turns :
    (run (step 1) (initial unset "wq")
      (List.replicate 7 (.owner true none) ++ [.submit 5] ++ turnsOfOne)).isSome ∧
    turnsOfOne.countP Event.turn = 23 ∧ turnsOfOne.countP Event.turn ≤ 40 := by
  have hrun : (run (step 1) (initial unset "wq")
      (List.replicate 7 (.owner true none) ++ [.submit 5] ++ turnsOfOne)).isSome := by
    decide +kernel
  refine ⟨hrun, by decide +kernel, le_trans ?_ (turns_bounded (run_outcome hrun))⟩
  rw [List.countP_append, List.countP_append]
  exact Nat.le_add_left _ _

theorem turn_owner {e : Event ω} (he : e.turn) (h : step n s e = some t) : t.owner = s.owner := by
  cases e with
  | worker k ok =>
    obtain ⟨-, -, -, -, -, -, -, -, rfl⟩ := step_worker_inv h
    rfl
  | call k target =>
    obtain ⟨-, -, -, -, -, -, -, -, rfl⟩ := step_call_inv h
    rfl
  | _ => cases he

private theorem turns_owner {es : List (Event ω)} (hes : ∀ e ∈ es, e.turn)
    (h : run (step n) s es = some t) : t.owner = s.owner := by
  induction es generalizing s with
  | nil => rw [Option.some.inj h]
  | cons e es ih =>
    obtain ⟨u, hu, hr⟩ := Option.bind_eq_some_iff.mp h
    have hone := turn_owner (hes e List.mem_cons_self) hu
    exact (ih (fun e he => hes e (List.mem_cons_of_mem _ he)) hr).trans hone

private theorem turns_length {es : List (Event ω)} (hes : ∀ e ∈ es, e.turn) (ha : Accounted n s)
    (hp : Phased n s) (hi : s.owner.initialised) (h : run (step n) s es = some t) :
    (es.length : Int) ≤ s.effort false := by
  have hinv : ∀ ⦃s : State ω⦄ ⦃e t⦄, Accounted n s ∧ Phased n s → step n s e = some t →
      Accounted n t ∧ Phased n t := fun s e t hs he =>
    ⟨hs.1.move (step_move he), hs.2.move hs.1 (step_move he)⟩
  have hpay : ∀ ⦃s : State ω⦄ ⦃e t⦄, Accounted n s ∧ Phased n s → step n s e = some t →
      t.potential n + e.turn.toInt ≤ s.potential n + e.grant := fun s e t hs he =>
    hs.1.potential_step hs.2 he
  have hrun := run_amortised hinv hpay ⟨ha, hp⟩ h
  have hcost : total (fun e : Event ω => e.turn.toInt) es = es.length := by
    rw [← total_one]
    exact total_congr fun e he => by rw [hes e he, Bool.toInt_true]
  have hgrant : total Event.grant es = 0 := by
    have hzero : total (fun _ : Event ω => (0 : Int) * 0) es = 0 := by rw [total_mul, zero_mul]
    rw [← hzero]
    refine total_congr fun e he => ?_
    have hturn := hes e he
    cases e <;> simp_all
  have hs : s.potential n = s.effort false := by
    rw [State.potential, if_pos ha.begun]
    cases ho : s.owner <;> simp_all [OwnerPc.initialised, OwnerPc.accepting]
  have ht : 0 ≤ t.potential n := by
    have heff := t.effort_nonneg false
    unfold State.potential
    split <;> omega
  omega

/-- Left to themselves, the workers and the calls stop after so many steps as the state tells,
whatever the order of their steps; and they can stop only with every call returned, every
accepted work executed, every work unmarked, and all workers asleep or gone. -/
theorem turns_end_rested (hn : 1 ≤ n) (h : Reachable (step n) (initial old name) s)
    (hi : s.owner.initialised) (ho : s.owner.critical = false) {es : List (Event ω)}
    (hes : ∀ e ∈ es, e.turn) (hr : run (step n) s es = some t) :
    (es.length : Int) ≤ s.effort false ∧
    ((∀ e : Event ω, e.turn → step n t e = none) → Rested t) := by
  have hs := reachable_initialised h hi
  have hsound := reachable_sound hn hs
  refine ⟨turns_length hes hsound.accounted hsound.phased hi hr, fun hstuck => ?_⟩
  have howner := turns_owner hes hr
  refine rested_of_unready hn (hs.trans ⟨es, hr⟩) (howner ▸ ho) (fun pc hpc => ?_) fun pc hpc => ?_
  · by_contra hready
    obtain ⟨k, hk⟩ := List.getElem?_of_mem hpc
    have hen := worker_enabled (n := n) hk ((Bool.not_eq_false _).mp hready) true
    rw [hstuck _ rfl] at hen
    cases hen
  · by_contra hready
    obtain ⟨k, hk⟩ := List.getElem?_of_mem hpc
    obtain ⟨target, hen⟩ := call_enabled (n := n) hk ((Bool.not_eq_false _).mp hready)
    rw [hstuck _ rfl] at hen
    cases hen

theorem one_work_ends_rested : Reachable (step 1) (initial unset "wq") submitted ∧
    (outcome (step 1) submitted turnsOfOne).shared.called = [5] ∧
    Rested (outcome (step 1) submitted turnsOfOne) := by
  have h : Reachable (step 1) (initial unset "wq") submitted :=
    ⟨_, run_outcome (by decide +kernel)⟩
  have hr := run_outcome (by decide +kernel : (run (step 1) submitted turnsOfOne).isSome)
  have hw : (outcome (step 1) submitted turnsOfOne).workers = [.blocked] := by decide +kernel
  have hc : (outcome (step 1) submitted turnsOfOne).calls = [.returned 5 .ok] := by decide +kernel
  refine ⟨h, by decide +kernel, (turns_end_rested le_rfl h (by decide +kernel) (by decide +kernel)
    (by decide +kernel) hr).2 fun e he => ?_⟩
  cases e with
  | worker k ok => cases k <;> simp [step, hw, workerStep]
  | call k target => cases k <;> simp [step, hc, callStep]
  | _ => cases he

end Runs
end CommonProject.Workqueue
