import CommonProject.Workqueue.Termination

/-! In strongly fair executions every submitted work is executed, however many follow it. -/
namespace CommonProject.Workqueue
open Foundations
variable {ω : Type}

@[simp] def WorkerPc.hold : WorkerPc ω → Nat
  | .unlockRun _ | .leaveUnlock => 1
  | .leaveRef => 2
  | .leaveCount => 3
  | .surplusTest => 4
  | .checkAlive => 5
  | .fetch => 6
  | .wakeUp | .unspawn => 7
  | .startCount | .spawn => 8
  | .startIdle | .grow => 9
  | _ => 0

@[simp] def CallPc.hold : CallPc ω → Nat
  | .unlock _ _ => 1
  | .notify _ => 2
  | .storeWq _ => 3
  | .insert _ => 4
  | _ => 0

@[simp] def WorkerPc.toFetch : WorkerPc ω → Nat
  | .wakeUp | .unspawn => 1
  | .woken | .startCount | .spawn => 2
  | .startIdle | .grow => 3
  | .created | .relock => 4
  | .clearWq _ => 5
  | .runFunc _ => 6
  | .unlockRun _ => 7
  | _ => 0

@[simp] def CallPc.work : CallPc ω → ω
  | .lock w | .insert w | .storeWq w | .notify w | .unlock w _ | .returned w _ => w

section Local
variable [DecidableEq ω] {n : Nat} {ok : Bool} {σ σ' : Shared ω} {e : Effect}

private theorem WorkerAct.hold {pc pc' : WorkerPc ω} (h : WorkerAct ok σ pc σ' pc' e)
    (hc : pc.critical) : σ'.locked = false ∨ pc'.critical ∧ pc'.hold < pc.hold := by
  cases h
  all_goals simp_all [Shared.unlock]

private theorem CallAct.hold {pc pc' : CallPc ω} (h : CallAct σ pc σ' pc' e)
    (hc : pc.critical) : σ'.locked = false ∨ pc'.critical ∧ pc'.hold < pc.hold := by
  cases h
  all_goals simp_all [Shared.unlock]

omit [DecidableEq ω] in
private theorem OwnerAct.hold {o o' : OwnerPc} (h : OwnerAct n ok σ o σ' o' e)
    (hc : o.critical) : σ'.locked = false ∨ o'.critical ∧ o'.stage < o.stage := by
  cases h
  all_goals simp_all [Shared.unlock]

omit [DecidableEq ω] in
private theorem ownerStep_of_critical (n : Nat) (ok : Bool) {o : OwnerPc} (hc : o.critical) :
    ∃ σ' o' e, ownerStep n ok σ o = some (σ', o', e) := by
  fun_cases ownerStep n ok σ o <;> simp_all

private theorem WorkerAct.toFetch {pc pc' : WorkerPc ω} (h : WorkerAct ok σ pc σ' pc' e)
    (ha : pc.awake) : pc = .fetch ∨ pc'.awake ∧ pc'.toFetch < pc.toFetch := by
  cases h
  all_goals simp_all

private theorem WorkerAct.held {w : ω} {pc pc' : WorkerPc ω}
    (h : WorkerAct ok σ pc σ' pc' e) (hw : pc.holds w) :
    σ'.wq w = false ∨ pc'.holds w ∧ pc'.toFetch < pc.toFetch := by
  cases h
  all_goals simp_all

/-- The first work leaves the list to the worker that takes it; else the list stays. -/
private theorem WorkerAct.list {pc pc' : WorkerPc ω} (h : WorkerAct ok σ pc σ' pc' e) :
    pc ≠ .fetch ∧ σ'.workList = σ.workList ∨ σ.workList = [] ∧ σ'.workList = [] ∨
    ∃ w rest, σ.workList = w :: rest ∧ σ'.workList = rest ∧ pc' = .unlockRun w ∧ e = .none := by
  cases h
  all_goals simp_all [Shared.unlock, Shared.useCond, Shared.warn]

private theorem CallAct.list {pc pc' : CallPc ω} (h : CallAct σ pc σ' pc' e) :
    ∃ l, σ'.workList = σ.workList ++ l := by
  cases h
  all_goals simp [Shared.unlock, Shared.useCond]

private theorem CallAct.work {pc pc' : CallPc ω} (h : CallAct σ pc σ' pc' e) :
    pc'.work = pc.work := by
  cases h
  all_goals rfl

/-- What a step does to other threads does not touch a thread that is not asleep. -/
private theorem perform_stays {target : Option Nat} {ws ws' : List (WorkerPc ω)} {k : Nat}
    {pc : WorkerPc ω} (h : perform target ws e = some ws') (hk : ws[k]? = some pc)
    (hb : pc ≠ .blocked) : ws'[k]? = some pc := by
  cases e with
  | none => exact Option.some.inj h ▸ hk
  | spawn =>
    rw [← Option.some.inj h, List.getElem?_append_left (List.getElem?_eq_some_iff.mp hk).1, hk]
  | signal =>
    cases target with
    | some j =>
      obtain ⟨hj, rfl⟩ := wakeWorker_eq_some.mp h
      rw [List.getElem?_set_ne, hk]
      rintro rfl
      exact hb (Option.some.inj (hk.symm.trans hj))
    | none =>
      simp only [perform] at h
      split at h
      · cases h
      · exact Option.some.inj h ▸ hk

end Local

section Global
variable [DecidableEq ω] {n k : Nat} {s t : State ω} {e : Event ω}

private theorem worker_stays {pc : WorkerPc ω} (h : step n s e = some t)
    (hk : s.workers[k]? = some pc)
    (hb : pc ≠ .blocked) (he : e.thread ≠ some (.worker k)) : t.workers[k]? = some pc := by
  cases e with
  | worker j ok =>
    obtain ⟨_, pc', _, _, ws, -, -, hw, rfl⟩ := step_worker_inv h
    have hne : j ≠ k := by
      rintro rfl
      exact he rfl
    exact perform_stays hw ((List.getElem?_set_ne hne).trans hk) hb
  | wake j =>
    obtain ⟨ws, hw, rfl⟩ := step_wake_inv h
    have hp : perform (some j) s.workers .signal = some ws := hw
    exact perform_stays hp hk hb
  | submit w =>
    obtain ⟨-, rfl⟩ := step_submit_inv h
    exact hk
  | call j target =>
    obtain ⟨_, _, _, _, ws, -, -, hw, rfl⟩ := step_call_inv h
    exact perform_stays hw hk hb
  | owner ok target =>
    obtain ⟨_, _, _, ws, -, hw, rfl⟩ := step_owner_inv h
    exact perform_stays hw hk hb

private theorem call_stays {pc : CallPc ω} (h : step n s e = some t) (hk : s.calls[k]? = some pc)
    (he : e.thread ≠ some (.call k)) : t.calls[k]? = some pc := by
  cases e with
  | submit w =>
    obtain ⟨-, rfl⟩ := step_submit_inv h
    exact (List.getElem?_append_left (List.getElem?_eq_some_iff.mp hk).1).trans hk
  | call j target =>
    obtain ⟨-, pc', -, -, -, -, -, -, rfl⟩ := step_call_inv h
    have hne : j ≠ k := by
      rintro rfl
      exact he rfl
    exact (List.getElem?_set_ne hne).trans hk
  | worker j ok =>
    obtain ⟨-, -, -, -, -, -, -, -, rfl⟩ := step_worker_inv h
    exact hk
  | wake j =>
    obtain ⟨-, -, rfl⟩ := step_wake_inv h
    exact hk
  | owner ok target =>
    obtain ⟨-, -, -, -, -, -, rfl⟩ := step_owner_inv h
    exact hk

private theorem owner_stays (h : step n s e = some t) (he : e.thread ≠ some .owner) :
    t.owner = s.owner := by
  cases e with
  | submit w =>
    obtain ⟨-, rfl⟩ := step_submit_inv h
    rfl
  | call j target => exact turn_owner rfl h
  | worker j ok => exact turn_owner rfl h
  | wake j =>
    obtain ⟨-, -, rfl⟩ := step_wake_inv h
    rfl
  | owner ok target => exact absurd rfl he

/-- The worker's own step takes it on, unless that puts it to sleep. -/
private theorem worker_moves {ok : Bool} {pc : WorkerPc ω} (h : step n s (.worker k ok) = some t)
    (hk : s.workers[k]? = some pc) : ∃ σ pc' e, WorkerAct ok s.shared pc σ pc' e ∧
      t.shared = σ ∧ (pc' ≠ .blocked → t.workers[k]? = some pc') := by
  obtain ⟨pc₀, pc', σ, e, ws, hk', hs, hw, rfl⟩ := step_worker_inv h
  obtain rfl := Option.some.inj (hk'.symm.trans hk)
  exact ⟨σ, pc', e, hs, rfl, perform_stays hw
    (List.getElem?_set_self (List.getElem?_eq_some_iff.mp hk).1)⟩

private theorem call_moves {target : Option Nat} {pc : CallPc ω}
    (h : step n s (.call k target) = some t)
    (hk : s.calls[k]? = some pc) : ∃ σ pc' e ws, CallAct s.shared pc σ pc' e ∧
      perform target s.workers e = some ws ∧ t.shared = σ ∧ t.workers = ws ∧
      t.calls[k]? = some pc' := by
  obtain ⟨pc₀, pc', σ, e, ws, hk', hs, hw, rfl⟩ := step_call_inv h
  obtain rfl := Option.some.inj (hk'.symm.trans hk)
  exact ⟨σ, pc', e, ws, hs, hw, rfl, rfl,
    List.getElem?_set_self (List.getElem?_eq_some_iff.mp hk).1⟩

omit [DecidableEq ω] in
private theorem thread_worker (he : e.thread = some (.worker k)) : ∃ ok, e = .worker k ok := by
  cases e <;> simp_all

omit [DecidableEq ω] in
private theorem thread_call (he : e.thread = some (.call k)) : ∃ target, e = .call k target := by
  cases e <;> simp_all

omit [DecidableEq ω] in
private theorem thread_owner (he : e.thread = some .owner) : ∃ ok target, e = .owner ok target := by
  cases e <;> simp_all

end Global

section Lock
variable [DecidableEq ω] {n : Nat} {x : Execution (step (ω := ω) n)}

def Holds (s : State ω) : Thread → Prop
  | .worker k => ∃ pc, s.workers[k]? = some pc ∧ pc.critical
  | .call k => ∃ pc, s.calls[k]? = some pc ∧ pc.critical
  | .owner => s.owner.critical

def holdingTime (s : State ω) : Thread → Nat
  | .worker k => (s.workers[k]?).elim 0 WorkerPc.hold
  | .call k => (s.calls[k]?).elim 0 CallPc.hold
  | .owner => s.owner.stage

omit [DecidableEq ω] in
private theorem exists_holder {s : State ω} (ha : Accounted n s) (hl : s.shared.locked = true) :
    ∃ τ, Holds s τ := by
  have hlock := ha.lock
  rw [hl, Bool.toInt_true] at hlock
  have h0 := number_nonneg WorkerPc.critical s.workers
  have h1 := number_nonneg CallPc.critical s.calls
  by_cases ho : s.owner.critical
  · exact ⟨.owner, ho⟩
  rw [(Bool.not_eq_true _).mp ho, Bool.toInt_false] at hlock
  by_cases hw : 0 < number WorkerPc.critical s.workers
  · obtain ⟨pc, hpc, hc⟩ := number_pos.mp hw
    obtain ⟨k, hk⟩ := List.getElem?_of_mem hpc
    exact ⟨.worker k, pc, hk, hc⟩
  · obtain ⟨pc, hpc, hc⟩ := number_pos.mp (by omega : 0 < number CallPc.critical s.calls)
    obtain ⟨k, hk⟩ := List.getElem?_of_mem hpc
    exact ⟨.call k, pc, hk, hc⟩

/-- The holder of the lock comes closer to giving it back, and the others do not disturb it. -/
private theorem holder_helped : Helped (step n) Event.thread (fun _ => True)
    (fun s : State ω => s.shared.locked = false) (fun _ _ => True)
    (fun τ s => holdingTime s τ) fun τ s => Holds s τ := by
  rintro s e t τ - hτ - he
  by_cases hown : e.thread = some τ
  · refine (?_ : _ ∨ (Holds t τ ∧ holdingTime t τ < holdingTime s τ)).imp_right fun h =>
      .inl ⟨τ, h⟩
    cases τ with
    | worker k =>
      obtain ⟨pc, hk, hc⟩ := hτ
      obtain ⟨ok, rfl⟩ := thread_worker hown
      obtain ⟨σ, pc', e, hs, rfl, hk'⟩ := worker_moves he hk
      refine (hs.hold hc).imp_right fun ⟨hc', hlt⟩ => ?_
      have hk'' := hk' (by rintro rfl; cases hc')
      exact ⟨⟨pc', hk'', hc'⟩, by simpa [holdingTime, hk, hk''] using hlt⟩
    | call k =>
      obtain ⟨pc, hk, hc⟩ := hτ
      obtain ⟨target, rfl⟩ := thread_call hown
      obtain ⟨σ, pc', e, ws, hs, -, rfl, -, hk'⟩ := call_moves he hk
      refine (hs.hold hc).imp_right fun ⟨hc', hlt⟩ => ?_
      exact ⟨⟨pc', hk', hc'⟩, by simpa [holdingTime, hk, hk'] using hlt⟩
    | owner =>
      obtain ⟨ok, target, rfl⟩ := thread_owner hown
      obtain ⟨o', σ, e, ws, hs, -, rfl⟩ := step_owner_inv he
      exact hs.hold hτ
  · right; right
    cases τ with
    | worker k =>
      obtain ⟨pc, hk, hc⟩ := hτ
      have hk' := worker_stays he hk (by rintro rfl; cases hc) hown
      exact ⟨⟨pc, hk', hc⟩, by simp [holdingTime, hk, hk'], hown⟩
    | call k =>
      obtain ⟨pc, hk, hc⟩ := hτ
      have hk' := call_stays he hk hown
      exact ⟨⟨pc, hk', hc⟩, by simp [holdingTime, hk, hk'], hown⟩
    | owner =>
      have ho := owner_stays he hown
      exact ⟨by simpa only [Holds, ho] using hτ, by simp only [holdingTime, ho], hown⟩

private theorem holder_enabled {s : State ω} {τ : Thread} (h : Holds s τ) :
    Enabled (step n) Event.thread τ s := by
  cases τ with
  | worker k =>
    obtain ⟨pc, hk, hc⟩ := h
    exact ⟨.worker k true, rfl, worker_enabled hk (by cases pc <;> simp_all) true⟩
  | call k =>
    obtain ⟨pc, hk, hc⟩ := h
    obtain ⟨target, hs⟩ := call_enabled (n := n) hk (by cases pc <;> simp_all)
    exact ⟨.call k target, rfl, hs⟩
  | owner =>
    obtain ⟨σ, o, e, hs⟩ := ownerStep_of_critical (σ := s.shared) n true h
    obtain ⟨target, hp⟩ := perform_possible s.workers e
    obtain ⟨ws, hws⟩ := Option.isSome_iff_exists.mp hp
    exact ⟨.owner true target, rfl, by simp [step, hs, hws]⟩

/-- The lock is free again and again. -/
private theorem lock_recurs (hf : WeaklyFair Event.thread x) {i : Nat}
    (ha : Accounted n (x.state i)) : ∃ j, i ≤ j ∧ (x.state j).shared.locked = false := by
  by_cases hl : (x.state i).shared.locked = false
  · exact ⟨i, le_rfl, hl⟩
  obtain ⟨τ, hτ⟩ := exists_holder ha ((Bool.not_eq_false _).mp hl)
  exact holder_helped.reaches (fun _ _ => trivial) (fun _ _ _ _ => trivial)
    (fun τ m _ hh => hf.turn fun j hj => holder_enabled (hh j hj)) hτ

variable {i k : Nat} (hf : StronglyFair Event.thread x)
  (ha : ∀ j, i ≤ j → Accounted n (x.state j))
include hf ha

/-- Whoever waits only for the lock gets it. -/
private theorem worker_turn {m : Nat} (hm : i ≤ m) (hw : ∀ j, m ≤ j → ∃ pc,
    (x.state j).workers[k]? = some pc ∧ pc.ready false) :
    ∃ j, m ≤ j ∧ ∃ e, x.event j = some e ∧ e.thread = some (.worker k) := by
  refine hf (.worker k) m fun j hj => ?_
  obtain ⟨l, hl, hfree⟩ := lock_recurs hf.weakly (ha j (hm.trans hj))
  obtain ⟨pc, hk, hr⟩ := hw l (hj.trans hl)
  exact ⟨l, hl, .worker k true, rfl, worker_enabled hk (by rwa [hfree]) true⟩

private theorem call_turn {m : Nat} (hm : i ≤ m) (hc : ∀ j, m ≤ j → ∃ pc,
    (x.state j).calls[k]? = some pc ∧ pc.ready false) :
    ∃ j, m ≤ j ∧ ∃ e, x.event j = some e ∧ e.thread = some (.call k) := by
  refine hf (.call k) m fun j hj => ?_
  obtain ⟨l, hl, hfree⟩ := lock_recurs hf.weakly (ha j (hm.trans hj))
  obtain ⟨pc, hk, hr⟩ := hc l (hj.trans hl)
  obtain ⟨target, hs⟩ := call_enabled (n := n) hk (by rwa [hfree])
  exact ⟨l, hl, .call k target, rfl, hs⟩

end Lock

section Calls
variable [DecidableEq ω] {n : Nat} {x : Execution (step (ω := ω) n)} {i k : Nat}

private theorem CallAct.progress {σ σ' : Shared ω} {e : Effect} {pc pc' : CallPc ω}
    (h : CallAct σ pc σ' pc' e) : pc'.rank.toNat < pc.rank.toNat := by
  cases h
  all_goals simp

/-- A call of `queue_work` returns. -/
private theorem call_returns (hf : StronglyFair Event.thread x)
    (ha : ∀ j, i ≤ j → Accounted n (x.state j)) {pc : CallPc ω}
    (hk : (x.state i).calls[k]? = some pc) :
    ∃ j, i ≤ j ∧ ∃ r, (x.state j).calls[k]? = some (.returned pc.work r) := by
  by_cases hready : pc.ready false
  swap
  · obtain ⟨w, r, rfl⟩ := resting_call ((Bool.not_eq_true _).mp hready)
    exact ⟨i, le_rfl, r, hk⟩
  have hh : Helped (step n) Event.thread (fun _ => True)
      (fun s : State ω => ∃ r, s.calls[k]? = some (.returned pc.work r)) (fun _ _ => True)
      (fun _ s => (s.calls[k]?).elim 0 fun c => c.rank.toNat)
      fun τ s => τ = .call k ∧ ∃ c, s.calls[k]? = some c ∧ c.ready false ∧ c.work = pc.work := by
    rintro s e t τ - ⟨rfl, c, hk, hr, hwork⟩ - he
    by_cases hown : e.thread = some (.call k)
    · obtain ⟨target, rfl⟩ := thread_call hown
      obtain ⟨σ, c', e, ws, hs, -, -, -, hk'⟩ := call_moves he hk
      have hwork' := hs.work.trans hwork
      by_cases hr' : c'.ready false
      · refine .inr (.inl ⟨_, ⟨rfl, c', hk', hr', hwork'⟩, ?_⟩)
        simpa [hk, hk'] using hs.progress
      · obtain ⟨w, r, rfl⟩ := resting_call ((Bool.not_eq_true _).mp hr')
        exact .inl ⟨r, by rw [hk', ← hwork']; rfl⟩
    · have hk' := call_stays he hk hown
      exact .inr (.inr ⟨⟨rfl, c, hk', hr, hwork⟩, by simp [hk, hk'], hown⟩)
  refine hh.reaches (fun _ _ => trivial) (fun _ _ _ _ => trivial) (fun τ m hm hwait => ?_)
    ⟨rfl, pc, hk, hready, rfl⟩
  obtain rfl : τ = .call k := (hwait m le_rfl).1
  exact call_turn hf ha hm fun j hj => by
    obtain ⟨-, c, hk, hr, -⟩ := hwait j hj
    exact ⟨c, hk, hr⟩

end Calls
section Works
variable [DecidableEq ω] {n : Nat} {x : Execution (step (ω := ω) n)} {s t : State ω} {w : ω}

/-- Some worker has taken the work and not finished it. -/
def Held (w : ω) (s : State ω) : Prop :=
  ∃ (k : Nat) (pc : WorkerPc ω), s.workers[k]? = some pc ∧ pc.holds w

def Sooner (w : ω) : Nat → State ω → Prop
  | 0, s => Held w s
  | p + 1, s => s.shared.workList[p]? = some w

/-- A work in the list keeps its place or moves up; it moves up when a worker looks. -/
private theorem place_step {p : Nat} (hb : s.owner.begun) (hp : s.shared.workList[p]? = some w)
    {e : Event ω} (h : step n s e = some t) :
    Sooner w p t ∨ t.shared.workList[p]? = some w ∧
      ∀ k ok, e = .worker k ok → s.workers[k]? ≠ some .fetch := by
  have hne : s.shared.workList ≠ [] := fun hnil => by simp [hnil] at hp
  cases e with
  | worker k ok =>
    obtain ⟨pc, pc', σ, e, ws, hk, hs, hw, rfl⟩ := step_worker_inv h
    rcases hs.list with ⟨hpc, hsame⟩ | ⟨hnil, -⟩ | ⟨v, rest, hold, hnew, rfl, rfl⟩
    · refine .inr ⟨by simpa only [hsame] using hp, fun j ok' hj => ?_⟩
      obtain ⟨rfl, rfl⟩ := Event.worker.inj hj
      rw [hk]
      exact fun hf => hpc (Option.some.inj hf)
    · exact absurd hnil hne
    · left
      rw [hold] at hp
      cases p with
      | zero =>
        obtain rfl : v = w := by simpa using hp
        refine ⟨k, .unlockRun v, ?_, by simp⟩
        rw [← Option.some.inj hw]
        exact List.getElem?_set_self (List.getElem?_eq_some_iff.mp hk).1
      | succ p => simpa only [Sooner, hnew, List.getElem?_cons_succ] using hp
  | wake k =>
    obtain ⟨ws, hw, rfl⟩ := step_wake_inv h
    exact .inr ⟨hp, nofun⟩
  | submit v =>
    obtain ⟨-, rfl⟩ := step_submit_inv h
    exact .inr ⟨hp, nofun⟩
  | call k target =>
    obtain ⟨pc, pc', σ, e, ws, hk, hs, hw, rfl⟩ := step_call_inv h
    obtain ⟨l, hl⟩ := hs.list
    refine .inr ⟨?_, nofun⟩
    simp only [hl]
    rw [List.getElem?_append_left (List.getElem?_eq_some_iff.mp hp).1, hp]
  | owner ok target =>
    obtain ⟨o, σ, e, ws, hs, hw, rfl⟩ := step_owner_inv h
    obtain ⟨hlist, -⟩ := hs.works hb
    exact .inr ⟨by simpa only [hlist] using hp, nofun⟩

/-- A worker on its way moves the work up. -/
private theorem awake_helps (p : Nat) (k : Nat) : Helped (step n) Event.thread (Accounted n)
    (Sooner w p) (fun _ _ => True) (fun _ s => (s.workers[k]?).elim 0 WorkerPc.toFetch)
    fun τ s => τ = .worker k ∧ s.shared.workList[p]? = some w ∧
      ∃ pc, s.workers[k]? = some pc ∧ pc.awake := by
  rintro s e t τ ha ⟨rfl, hp, pc, hk, hpc⟩ - he
  refine (place_step ha.begun hp he).imp_right fun ⟨hp', hlook⟩ => ?_
  by_cases hown : e.thread = some (.worker k)
  · obtain ⟨ok, rfl⟩ := thread_worker hown
    obtain ⟨σ, pc', e, hs, -, hk'⟩ := worker_moves he hk
    obtain rfl | ⟨hpc', hlt⟩ := hs.toFetch hpc
    · exact absurd hk (hlook k ok rfl)
    · have hk'' := hk' (by rintro rfl; cases hpc')
      exact .inl ⟨_, ⟨rfl, hp', pc', hk'', hpc'⟩, by simpa [hk, hk''] using hlt⟩
  · have hk' := worker_stays he hk (by rintro rfl; cases hpc) hown
    exact .inr ⟨⟨rfl, hp', pc, hk', hpc⟩, by simp [hk, hk'], hown⟩

/-- A call that has yet to signal brings a worker on its way. -/
private theorem pending_helps (hn : 1 ≤ n) (p : Nat) (k : Nat) : Helped (step n) Event.thread
    (fun s => Sound n s ∧ Committed s)
    (fun s => Sooner w p s ∨ s.shared.workList[p]? = some w ∧
      0 < number WorkerPc.awake s.workers) (fun _ _ => True)
    (fun _ s => (s.calls[k]?).elim 0 fun c => c.rank.toNat)
    fun τ s => τ = .call k ∧ s.shared.workList[p]? = some w ∧
      ∃ pc, s.calls[k]? = some pc ∧ pc.pending := by
  rintro s e t τ ⟨hs, hcom⟩ ⟨rfl, hp, pc, hk, hpc⟩ - he
  rcases place_step hs.accounted.begun hp he with hsoon | ⟨hp', -⟩
  · exact .inl (.inl hsoon)
  by_cases hown : e.thread = some (.call k)
  · obtain ⟨target, rfl⟩ := thread_call hown
    obtain ⟨σ, pc', e, ws, hstep, hw, -, hws, hk'⟩ := call_moves he hk
    rcases hstep.pending with hpend | ⟨-, hno⟩ | ⟨⟨v, rfl⟩, hsig⟩
    · exact .inr (.inl ⟨_, ⟨rfl, hp', pc', hk', hpend⟩,
        by simpa [hk, hk'] using hstep.progress⟩)
    · rw [hpc] at hno
      cases hno
    · have hmem := List.mem_of_getElem? hk
      have hi := hs.phased.initialised_of_call hs.accounted.begun hmem
      obtain ⟨-, hfree, -⟩ := hs.accounted.call_holds hmem rfl
      have hpos := hs.attended_after_notify hn hi (hcom _ hmem rfl) hfree hsig hw
      exact .inl (.inr ⟨hp', hws ▸ hpos⟩)
  · have hk' := call_stays he hk hown
    exact .inr (.inr ⟨⟨rfl, hp', pc, hk', hpc⟩, by simp [hk, hk'], hown⟩)

/-- A worker that has taken the work finishes it. -/
private theorem held_helps (k : Nat) : Helped (step n) Event.thread (fun _ => True)
    (fun s : State ω => s.shared.wq w = false) (fun _ _ => True)
    (fun _ s => (s.workers[k]?).elim 0 WorkerPc.toFetch)
    fun τ s => τ = .worker k ∧ ∃ pc, s.workers[k]? = some pc ∧ pc.holds w := by
  rintro s e t τ - ⟨rfl, pc, hk, hpc⟩ - he
  by_cases hown : e.thread = some (.worker k)
  · obtain ⟨ok, rfl⟩ := thread_worker hown
    obtain ⟨σ, pc', e, hs, rfl, hk'⟩ := worker_moves he hk
    refine (hs.held hpc).imp_right fun ⟨hpc', hlt⟩ => ?_
    have hk'' := hk' (by rintro rfl; cases hpc')
    exact .inl ⟨_, ⟨rfl, pc', hk'', hpc'⟩, by simpa [hk, hk''] using hlt⟩
  · have hk' := worker_stays he hk (by rintro rfl; cases hpc) hown
    exact .inr (.inr ⟨⟨rfl, pc, hk', hpc⟩, by simp [hk, hk'], hown⟩)

variable {old : WorkqueueStruct ω} {name : String} {i : Nat}

private theorem reachable_later (h : Reachable (step n) (opened n old name) (x.state i)) {j : Nat}
    (hj : i ≤ j) : Reachable (step n) (opened n old name) (x.state j) := by
  obtain ⟨k, rfl⟩ := Nat.exists_eq_add_of_le hj
  exact h.trans (x.reachable i k)

private theorem accounted_later (h : Reachable (step n) (opened n old name) (x.state i)) {j : Nat}
    (hj : i ≤ j) : Accounted n (x.state j) :=
  (reachable_delivered (reachable_later h hj)).1

private theorem awake_moves_up (hf : StronglyFair Event.thread x)
    (h : Reachable (step n) (opened n old name) (x.state i)) {p : Nat}
    (hp : (x.state i).shared.workList[p]? = some w)
    (hpos : 0 < number WorkerPc.awake (x.state i).workers) :
    ∃ j, i ≤ j ∧ Sooner w p (x.state j) := by
  obtain ⟨pc, hpc, haw⟩ := number_pos.mp hpos
  obtain ⟨k, hk⟩ := List.getElem?_of_mem hpc
  refine (awake_helps p k).reaches (fun j hj => accounted_later h hj) (fun _ _ _ _ => trivial)
    (fun τ m hm hwait => ?_) ⟨rfl, hp, pc, hk, haw⟩
  obtain rfl : τ = .worker k := (hwait m le_rfl).1
  refine worker_turn hf (fun j hj => accounted_later h hj) hm fun j hj => ?_
  obtain ⟨-, -, pc, hk, haw⟩ := hwait j hj
  exact ⟨pc, hk, by cases pc <;> simp_all⟩

private theorem listed_moves_up (hn : 1 ≤ n) (hf : StronglyFair Event.thread x)
    (h : Reachable (step n) (opened n old name) (x.state i)) {p : Nat}
    (hp : (x.state i).shared.workList[p]? = some w) :
    ∃ j, i ≤ j ∧ Sooner w p (x.state j) := by
  have hatt := (reachable_attended hn h).2.2 fun hnil => by simp [hnil] at hp
  by_cases haw : 0 < number WorkerPc.awake (x.state i).workers
  · exact awake_moves_up hf h hp haw
  have hpend : 0 < number CallPc.pending (x.state i).calls := by omega
  obtain ⟨pc, hpc, hc⟩ := number_pos.mp hpend
  obtain ⟨k, hk⟩ := List.getElem?_of_mem hpc
  have hwoken : ∃ j, i ≤ j ∧ (Sooner w p (x.state j) ∨
      (x.state j).shared.workList[p]? = some w ∧ 0 < number WorkerPc.awake (x.state j).workers) := by
    refine (pending_helps hn p k).reaches (fun j hj => ?_) (fun _ _ _ _ => trivial)
      (fun τ m hm hwait => ?_) ⟨rfl, hp, pc, hk, hc⟩
    · obtain ⟨hs, hcom, -⟩ := reachable_attended hn (reachable_later h hj)
      exact ⟨hs, hcom⟩
    · obtain rfl : τ = .call k := (hwait m le_rfl).1
      refine call_turn hf (fun j hj => accounted_later h hj) hm fun j hj => ?_
      obtain ⟨-, -, pc, hk, hc⟩ := hwait j hj
      exact ⟨pc, hk, by cases pc <;> simp_all⟩
  obtain ⟨j, hj, hsoon | ⟨hp', hpos⟩⟩ := hwoken
  · exact ⟨j, hj, hsoon⟩
  · obtain ⟨l, hl, hsoon⟩ := awake_moves_up hf (reachable_later h hj) hp' hpos
    exact ⟨l, hj.trans hl, hsoon⟩

/-- A queued work is taken, since every work before it is. -/
private theorem listed_is_held (hn : 1 ≤ n) (hf : StronglyFair Event.thread x)
    (h : Reachable (step n) (opened n old name) (x.state i)) {p : Nat}
    (hp : (x.state i).shared.workList[p]? = some w) : ∃ j, i ≤ j ∧ Held w (x.state j) := by
  induction p generalizing i with
  | zero => exact listed_moves_up hn hf h hp
  | succ p ih =>
    obtain ⟨j, hj, hp'⟩ := listed_moves_up hn hf h hp
    obtain ⟨l, hl, hheld⟩ := ih (reachable_later h hj) hp'
    exact ⟨l, hj.trans hl, hheld⟩

private theorem held_is_finished (hf : StronglyFair Event.thread x)
    (h : Reachable (step n) (opened n old name) (x.state i)) (hh : Held w (x.state i)) :
    ∃ j, i ≤ j ∧ (x.state j).shared.wq w = false := by
  obtain ⟨k, pc, hk, hw⟩ := hh
  refine (held_helps k).reaches (fun _ _ => trivial) (fun _ _ _ _ => trivial)
    (fun τ m hm hwait => ?_) ⟨rfl, pc, hk, hw⟩
  obtain rfl : τ = .worker k := (hwait m le_rfl).1
  refine worker_turn hf (fun j hj => accounted_later h hj) hm fun j hj => ?_
  obtain ⟨-, pc, hk, hw⟩ := hwait j hj
  exact ⟨pc, hk, by cases pc <;> simp_all⟩

/-- At some moment `flush_work` reads NULL. -/
private theorem flush_reads_null (hn : 1 ≤ n) (hf : StronglyFair Event.thread x)
    (h : Reachable (step n) (opened n old name) (x.state i)) (w : ω) :
    ∃ j, i ≤ j ∧ flushReturns (x.state j).shared w := by
  suffices hnull : ∃ j, i ≤ j ∧ (x.state j).shared.wq w = false by
    obtain ⟨j, hj, hw⟩ := hnull
    exact ⟨j, hj, by simp [flushReturns, hw]⟩
  by_cases hw : (x.state i).shared.wq w = false
  · exact ⟨i, le_rfl, hw⟩
  rw [Bool.not_eq_false] at hw
  have hd := (reachable_delivered h).2
  have hheld := hd.held w
  rw [hd.not_storing hw, hw, Bool.toInt_true] at hheld
  suffices htaken : ∃ j, i ≤ j ∧ Held w (x.state j) by
    obtain ⟨j, hj, hh⟩ := htaken
    obtain ⟨l, hl, hnull⟩ := held_is_finished hf (reachable_later h hj) hh
    exact ⟨l, hj.trans hl, hnull⟩
  by_cases hpos : 0 < number (WorkerPc.holds w) (x.state i).workers
  · obtain ⟨pc, hpc, hh⟩ := number_pos.mp hpos
    obtain ⟨k, hk⟩ := List.getElem?_of_mem hpc
    exact ⟨i, le_rfl, k, pc, hk, hh⟩
  · have hmem : w ∈ (x.state i).shared.workList := List.count_pos_iff.mp (by omega)
    obtain ⟨p, hp⟩ := List.getElem?_of_mem hmem
    exact listed_is_held hn hf h hp

private theorem returned_stays {k : Nat} {r : QueueResult} (h : Reachable (step n) s t)
    (hk : s.calls[k]? = some (.returned w r)) : t.calls[k]? = some (.returned w r) :=
  h.invariant (P := fun s => s.calls[k]? = some (.returned w r)) hk fun {s e t} hs he => by
    refine call_stays he hs fun hown => ?_
    obtain ⟨target, rfl⟩ := thread_call hown
    obtain ⟨σ, pc', e, ws, hstep, -⟩ := call_moves he hs
    cases hstep

/-- In a strongly fair execution, with any number of further submissions, every call of
`queue_work` returns, and at some moment after that `flush_work` reads NULL for its work. By
then the function of the work has been called, and has returned, at least as often as calls of
`queue_work` for it returned 0, with this call among them if it did. A call of a work function
is a step of the worker, so fairness has every one of them return. -/
theorem submitted_work_is_executed (hn : 1 ≤ n) (hf : StronglyFair Event.thread x)
    (h : Reachable (step n) (initial old name) (x.state i)) {k : Nat} {pc : CallPc ω}
    (hk : (x.state i).calls[k]? = some pc) :
    ∃ j, i ≤ j ∧ ∃ r, (x.state j).calls[k]? = some (.returned pc.work r) ∧
      ∃ m, j ≤ m ∧ (x.state m).calls[k]? = some (.returned pc.work r) ∧
        flushReturns (x.state m).shared pc.work ∧
        (x.state m).calls.countP (CallPc.succeeded pc.work) ≤
          (x.state m).shared.finished.count pc.work ∧
        (x.state m).shared.called.count pc.work =
          (x.state m).shared.finished.count pc.work := by
  have hr : Reachable (step n) (opened n old name) (x.state i) :=
    (reachable_opened h).resolve_left fun ho => by simp [ho.calls] at hk
  obtain ⟨j, hj, r, hret⟩ := call_returns hf (fun j hj => accounted_later hr hj) hk
  obtain ⟨m, hm, hflush⟩ := flush_reads_null hn hf (reachable_later hr hj) pc.work
  obtain ⟨l, rfl⟩ := Nat.exists_eq_add_of_le hm
  obtain ⟨ha, hd⟩ := reachable_delivered (reachable_later hr (hj.trans hm))
  have hnull : (x.state (j + l)).shared.wq pc.work = false := by simpa [flushReturns] using hflush
  have hle := hd.succeeded_le pc.work
  rw [hnull, Bool.toInt_false] at hle
  exact ⟨j, hj, r, hret, j + l, hm, returned_stays (x.reachable j l) hret, hflush, by omega,
    hd.called_of_null ha hnull⟩

theorem one_work_is_executed : ∃ x : Execution (step 1), x.state 0 = initial unset "wq" ∧
    StronglyFair Event.thread x ∧ (x.state 15).calls = [.lock 5] ∧
    ∃ j, 15 ≤ j ∧ ∃ r, (x.state j).calls[0]? = some (.returned 5 r) ∧
      ∃ m, j ≤ m ∧ (x.state m).calls[0]? = some (.returned 5 r) ∧
        flushReturns (x.state m).shared 5 ∧
        (x.state m).calls.countP (CallPc.succeeded 5) ≤ (x.state m).shared.finished.count 5 ∧
        (x.state m).shared.called.count 5 = (x.state m).shared.finished.count 5 := by
  have hrun : (run (step 1) (initial unset "wq") lifeOfOne).isSome := by decide +kernel
  have hf : StronglyFair Event.thread (Execution.ofRun _ _ hrun) :=
    Execution.ofRun_fair hrun lifeOfOne_rests
  have hreach : Reachable (step 1) (initial unset "wq")
      (outcome (step 1) (initial unset "wq") (lifeOfOne.take 15)) :=
    ⟨_, run_outcome (by decide +kernel)⟩
  have hcalls : (outcome (step 1) (initial unset "wq") (lifeOfOne.take 15)).calls = [.lock 5] := by
    decide +kernel
  have hk : (outcome (step 1) (initial unset "wq") (lifeOfOne.take 15)).calls[0]? =
      some (.lock 5) := by rw [hcalls]; rfl
  exact ⟨_, rfl, hf, hcalls, submitted_work_is_executed le_rfl hf hreach hk⟩

end Works
end CommonProject.Workqueue
