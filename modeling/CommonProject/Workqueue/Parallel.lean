import CommonProject.Workqueue.Wakeup

/-! No worker sleeps through work that others have yet to take. -/
namespace CommonProject.Workqueue
open Foundations
variable {ω : Type}

/-- Back from a wait and about to take a work. -/
@[simp] def WorkerPc.arriving : WorkerPc ω → Bool
  | .woken | .wakeUp | .fetch => true
  | _ => false

/-- Has seen the list empty and holds the lock since. -/
@[simp] def WorkerPc.seenEmpty : WorkerPc ω → Bool
  | .checkAlive | .surplusTest => true
  | _ => false

/-- While a worker sleeps, every queued work has a worker of its own on the way, or a signal
of its own to come. -/
structure Served (s : State ω) : Prop where
  empty : ∀ pc ∈ s.workers, pc.seenEmpty → s.shared.workList = []
  served : .blocked ∈ s.workers → (s.shared.workList.length : Int) ≤
    number WorkerPc.arriving s.workers + number CallPc.pending s.calls

section Local
variable [DecidableEq ω] {ok : Bool} {σ σ' : Shared ω} {e : Effect}

/-- A worker that takes a work off the list is no longer on its way. -/
private theorem WorkerAct.arriving {pc pc' : WorkerPc ω} (h : WorkerAct ok σ pc σ' pc' e)
    (hpc : pc.seenEmpty → σ.workList = []) :
    σ'.workList = [] ∨ pc' ≠ .blocked ∧ pc'.seenEmpty = false ∧
      (σ'.workList.length + pc.arriving.toInt : Int) ≤ σ.workList.length + pc'.arriving.toInt := by
  cases h
  all_goals simp_all [Shared.unlock, Shared.useCond, Shared.warn]

/-- The list grows with the signals to come; a signal is left out when nobody waits. -/
private theorem CallAct.arriving {pc pc' : CallPc ω} (h : CallAct σ pc σ' pc' e) :
    (e = .none ∧ (σ'.workList.length + pc.pending.toInt : Int) ≤
      σ.workList.length + pc'.pending.toInt) ∨
    σ'.workList = σ.workList ∧ pc.pending ∧ pc'.pending = false ∧
      (e = .signal ∨ e = .none ∧ σ.nrIdleWorker = 0) := by
  cases h
  all_goals simp_all [Shared.unlock, Shared.useCond]

private theorem CallAct.workList {pc pc' : CallPc ω} (h : CallAct σ pc σ' pc' e) :
    σ'.workList = σ.workList ∨ pc.critical := by
  cases h
  all_goals simp_all [Shared.unlock, Shared.useCond]

private theorem perform_arriving {target : Option Nat} {ws ws' : List (WorkerPc ω)}
    (h : perform target ws e = some ws') :
    number WorkerPc.arriving ws ≤ number WorkerPc.arriving ws' := by
  cases e with
  | none => cases h; rfl
  | spawn =>
    cases h
    simp
  | signal =>
    cases target with
    | some k =>
      obtain ⟨hk, rfl⟩ := wakeWorker_eq_some.mp h
      rw [number_set _ _ hk]
      simp
    | none =>
      simp only [perform] at h
      split at h
      · cases h
      · cases h; rfl

/-- A signal sent while a worker sleeps brings one more worker on the way. -/
private theorem perform_signal_arriving {target : Option Nat} {ws ws' : List (WorkerPc ω)}
    (h : perform target ws .signal = some ws') (hb : .blocked ∈ ws) :
    number WorkerPc.arriving ws' = number WorkerPc.arriving ws + 1 := by
  cases target with
  | some k =>
    obtain ⟨hk, rfl⟩ := wakeWorker_eq_some.mp h
    rw [number_set _ _ hk]
    simp
  | none => simp [perform, hb] at h

private theorem perform_blocked {target : Option Nat} {ws ws' : List (WorkerPc ω)}
    (h : perform target ws e = some ws') (hb : .blocked ∈ ws') : .blocked ∈ ws := by
  by_contra hn
  exact perform_forall (Q := fun pc => pc ≠ .blocked) nofun nofun h
    (fun pc hpc hp => hn (hp ▸ hpc)) _ hb rfl

end Local

section Global
variable [DecidableEq ω] {n : Nat} {s t : State ω}

private theorem Served.move (h : Served s) (ha : Accounted n s) (hm : Move n s t) : Served t := by
  cases hm with
  | @worker _ _ pc pc' _ _ ws hk hs hw =>
    have hmem := List.mem_of_getElem? hk
    have hstep := hs.arriving (h.empty pc hmem)
    have hshrinks := hs.awake.1
    refine ⟨?_, fun hb => ?_⟩
    · refine perform_forall (Q := fun pc => pc.seenEmpty → _) nofun nofun hw fun c hc hseen => ?_
      rcases List.mem_or_eq_of_mem_set hc with hold | rfl
      · by_contra hne
        exact hshrinks hne (h.empty c hold hseen)
      · exact hstep.resolve_right fun hr => Bool.false_ne_true (hr.2.1.symm.trans hseen)
    · have hmono := perform_arriving hw
      have hset := number_set WorkerPc.arriving pc' hk
      have h0 := number_nonneg WorkerPc.arriving ws
      have h1 := number_nonneg CallPc.pending s.calls
      rcases hstep with hnil | ⟨hpc, -, hle⟩
      · simp only [hnil, List.length_nil]
        omega
      · have hold : .blocked ∈ s.workers :=
          (List.mem_or_eq_of_mem_set (perform_blocked hw hb)).resolve_right (Ne.symm hpc)
        have hserved := h.served hold
        simp only
        omega
  | wake hw =>
    obtain ⟨hk, rfl⟩ := wakeWorker_eq_some.mp hw
    refine ⟨fun c hc hseen => ?_, fun _ => ?_⟩
    · rcases List.mem_or_eq_of_mem_set hc with hold | rfl
      · exact h.empty c hold hseen
      · cases hseen
    · have hserved := h.served (List.mem_of_getElem? hk)
      have hset := number_set WorkerPc.arriving .woken hk
      simp only [WorkerPc.arriving, Bool.toInt_true, Bool.toInt_false] at hset
      simp only
      omega
  | submit => exact ⟨h.empty, fun hb => by simpa using h.served hb⟩
  | @call k _ pc pc' _ _ _ hk hs hw =>
    refine ⟨?_, fun hb => ?_⟩
    · refine perform_forall (Q := fun pc => pc.seenEmpty → _) nofun nofun hw fun c hc hseen => ?_
      rcases hs.workList with hsame | hcrit
      · exact hsame.trans (h.empty c hc hseen)
      · -- the call holds the lock, so no worker can have seen the list since it took it
        obtain ⟨-, hzero, -⟩ := ha.call_holds (List.mem_of_getElem? hk) hcrit
        have hout := number_eq_zero.mp hzero c hc
        cases c <;> simp_all
    · have hold := perform_blocked hw hb
      have hserved := h.served hold
      have hset := number_set CallPc.pending pc' hk
      rcases hs.arriving with ⟨rfl, hle⟩ | ⟨hsame, hp, hp', hsig⟩
      · cases hw
        simp only
        omega
      · rw [hp, hp', Bool.toInt_true, Bool.toInt_false] at hset
        rcases hsig with rfl | ⟨-, hzero⟩
        · have hone := perform_signal_arriving hw hold
          simp only [hsame]
          omega
        · have hpos := number_pos.mpr ⟨_, hold, (rfl : WorkerPc.blocked.idle = true)⟩
          rw [← ha.idle] at hpos
          omega
  | owner hs hw =>
    obtain ⟨hlist, -⟩ := hs.works ha.begun
    refine ⟨?_, fun hb => ?_⟩
    · simp only [hlist]
      exact perform_forall (Q := fun pc => pc.seenEmpty → _) nofun nofun hw h.empty
    · have hserved := h.served (perform_blocked hw hb)
      have hmono := perform_arriving hw
      simp only [hlist]
      omega

end Global

section Runs
variable [DecidableEq ω] {n : Nat} {old : WorkqueueStruct ω} {name : String} {s : State ω}

private theorem reachable_served (h : Reachable (step n) (opened n old name) s) :
    Accounted n s ∧ Served s :=
  h.invariant (P := fun s => Accounted n s ∧ Served s)
    ⟨(opened_sound n old name).accounted, ⟨nofun, nofun⟩⟩
    fun hi he => ⟨hi.1.move (step_move he), hi.2.move hi.1 (step_move he)⟩

/-- Whenever the lock is free and a worker sleeps, at least as many workers have been woken
as works are queued. -/
theorem sleeping_worker_leaves_no_work (h : Reachable (step n) (initial old name) s)
    (hi : s.owner.initialised) (hl : s.shared.locked = false) (hb : .blocked ∈ s.workers) :
    s.shared.workList.length ≤ s.workers.count .woken := by
  obtain ⟨ha, hs⟩ := reachable_served (reachable_initialised h hi)
  have hserved := hs.served hb
  have hpend : number CallPc.pending s.calls = 0 := number_eq_zero.mpr fun pc hpc => by
    have := ha.call_outside hl hpc
    cases pc <;> simp_all
  have harr : number WorkerPc.arriving s.workers = s.workers.count .woken := by
    rw [List.count, ← number_eq_countP]
    refine number_congr fun pc hpc => ?_
    have hout := ha.worker_outside hl hpc
    cases pc <;> simp_all
  omega

theorem one_woken_one_sleeps : ∃ s : State Nat, Reachable (step 2) (initial unset "wq") s ∧
    s.workers = [.woken, .blocked] ∧ s.shared.workList.length ≤ s.workers.count .woken := by
  have hr := Reachable.get (step 2) (initial unset "wq")
    (List.flatten [.replicate 9 (.owner true none), .replicate 7 (.worker 0 true),
      .replicate 7 (.worker 1 true), .submit 5 :: .replicate 5 (.call 0 (some 0))])
    (by decide +kernel)
  exact ⟨_, hr, rfl, sleeping_worker_leaves_no_work hr rfl rfl (List.mem_of_getElem? (i := 1) rfl)⟩

end Runs
end CommonProject.Workqueue
