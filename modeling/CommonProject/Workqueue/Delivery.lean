import CommonProject.Workqueue.Bounds

/-! Every accepted work is executed once, and the works are taken in order. -/
namespace CommonProject.Workqueue
open Foundations
variable {ω : Type} [DecidableEq ω]

/-- Between `list_del_init` and the store that ends the execution. -/
@[simp] def WorkerPc.holds (work : ω) : WorkerPc ω → Bool
  | .unlockRun w | .runFunc w | .clearWq w => w == work
  | _ => false

/-- Between the call of the work's function and that store. -/
@[simp] def WorkerPc.ending (work : ω) : WorkerPc ω → Bool
  | .clearWq w => w == work
  | _ => false

@[simp] def CallPc.storing (work : ω) : CallPc ω → Bool
  | .storeWq w => w == work
  | _ => false

/-- The submission is on its way to a return value of 0 or has returned it. -/
@[simp] def CallPc.accepts (work : ω) : CallPc ω → Bool
  | .notify w => w == work
  | .unlock w r | .returned w r => decide (r = .ok) && w == work
  | _ => false

@[simp] def CallPc.succeeded (work : ω) : CallPc ω → Bool
  | .returned w r => decide (r.code = 0) && w == work
  | _ => false

/-- The function of the work was called, and each call ended, as often as `queue_work` returned 0
for the work. -/
def Executed (w : ω) (s : State ω) : Prop :=
  s.shared.called.count w = s.calls.countP (CallPc.succeeded w) ∧
  s.shared.finished.count w = s.calls.countP (CallPc.succeeded w)

/-- Each work is where its `wq` says, and each accepted submission ends in one execution. -/
structure Delivered (s : State ω) : Prop where
  order : s.shared.accepted = s.shared.taken ++ s.shared.workList
  storing : ∀ w, .storeWq w ∈ s.calls → s.shared.wq w = false ∧ w ∈ s.shared.workList
  held : ∀ w, s.shared.workList.count w + number (WorkerPc.holds w) s.workers =
    (s.shared.wq w).toInt + number (CallPc.storing w) s.calls
  finished : ∀ w, number (CallPc.accepts w) s.calls =
    s.shared.finished.count w + (s.shared.wq w).toInt
  taken : ∀ w, (s.shared.taken.count w : Int) =
    s.shared.finished.count w + number (WorkerPc.holds w) s.workers
  called : ∀ w, (s.shared.called.count w : Int) =
    s.shared.finished.count w + number (WorkerPc.ending w) s.workers

private theorem count_cons_toInt (w x : ω) (l : List ω) :
    ((x :: l).count w : Int) = l.count w + (x == w).toInt := by
  rw [List.count_cons]
  cases x == w <;> simp

private theorem count_singleton_toInt (w x : ω) : ([x].count w : Int) = (x == w).toInt := by
  simp [count_cons_toInt]

private theorem update_false_toInt {f : ω → Bool} {x : ω} (h : f x = true) (w : ω) :
    (Function.update f x false w).toInt = (f w).toInt - (x == w).toInt := by
  rcases eq_or_ne x w with rfl | hne
  · simp [h]
  · simp [Function.update_of_ne hne.symm, beq_eq_false_iff_ne.mpr hne]

private theorem update_true_toInt {f : ω → Bool} {x : ω} (h : f x = false) (w : ω) :
    (Function.update f x true w).toInt = (f w).toInt + (x == w).toInt := by
  rcases eq_or_ne x w with rfl | hne
  · simp [h]
  · simp [Function.update_of_ne hne.symm, beq_eq_false_iff_ne.mpr hne]

section Local
variable {ok : Bool} {σ σ' : Shared ω} {e : Effect}

private theorem WorkerAct.delivery {pc pc' : WorkerPc ω} (h : WorkerAct ok σ pc σ' pc' e)
    (hc : ∀ x, pc = .clearWq x → σ.wq x = true) (w : ω) :
    (σ'.workList.count w + (pc'.holds w).toInt - (σ'.wq w).toInt : Int) =
      σ.workList.count w + (pc.holds w).toInt - (σ.wq w).toInt ∧
    (σ'.finished.count w + (σ'.wq w).toInt : Int) = σ.finished.count w + (σ.wq w).toInt := by
  cases h
  case fetchWork work rest hl =>
    refine ⟨?_, rfl⟩
    rw [hl, count_cons_toInt]
    simp only [WorkerPc.holds, Bool.toInt_false]
    omega
  case clearWq work =>
    have hu := update_false_toInt (hc work rfl) w
    have hx := count_singleton_toInt w work
    simp only [WorkerPc.holds, Bool.toInt_false, List.count_append]
    exact ⟨by omega, by omega⟩
  all_goals simp_all [Shared.unlock, Shared.useCond, Shared.warn]

/-- Each work taken is called and then ended by the worker that took it. -/
private theorem WorkerAct.executes {pc pc' : WorkerPc ω} (h : WorkerAct ok σ pc σ' pc' e)
    (w : ω) :
    (σ'.taken.count w - σ'.finished.count w - (pc'.holds w).toInt : Int) =
      σ.taken.count w - σ.finished.count w - (pc.holds w).toInt ∧
    (σ'.called.count w - σ'.finished.count w - (pc'.ending w).toInt : Int) =
      σ.called.count w - σ.finished.count w - (pc.ending w).toInt := by
  have hone := count_singleton_toInt w
  cases h
  case fetchWork | runFunc | clearWq =>
    constructor <;>
      simp only [WorkerPc.holds, WorkerPc.ending, Bool.toInt_false, List.count_append,
        Nat.cast_add, hone] <;>
      omega
  all_goals simp [Shared.unlock, Shared.useCond, Shared.warn]

private theorem WorkerAct.order {pc pc' : WorkerPc ω} (h : WorkerAct ok σ pc σ' pc' e)
    (ho : σ.accepted = σ.taken ++ σ.workList) : σ'.accepted = σ'.taken ++ σ'.workList := by
  cases h
  all_goals simp_all [Shared.unlock, Shared.useCond, Shared.warn]

/-- Outside of critical sections a worker can only end an execution. -/
private theorem WorkerAct.outside {pc pc' : WorkerPc ω} (h : WorkerAct ok σ pc σ' pc' e)
    (hl : σ.locked) (hc : pc.critical = false) (w : ω) :
    σ'.workList = σ.workList ∧ (σ.wq w = false → σ'.wq w = false) := by
  cases h
  all_goals simp_all [Function.update_apply]

private theorem CallAct.delivery {pc pc' : CallPc ω} (h : CallAct σ pc σ' pc' e)
    (hs : ∀ x, pc = .storeWq x → σ.wq x = false) (w : ω) :
    (σ'.workList.count w - (σ'.wq w).toInt - (pc'.storing w).toInt : Int) =
      σ.workList.count w - (σ.wq w).toInt - (pc.storing w).toInt ∧
    ((pc'.accepts w).toInt - σ'.finished.count w - (σ'.wq w).toInt : Int) =
      (pc.accepts w).toInt - σ.finished.count w - (σ.wq w).toInt ∧
    (pc' = .storeWq w → σ'.wq w = false ∧ w ∈ σ'.workList) := by
  cases h
  case insert work hn ha =>
    refine ⟨?_, rfl, ?_⟩
    · have hx := count_singleton_toInt w work
      simp only [CallPc.storing, Bool.toInt_false, List.count_append]
      omega
    · rintro ⟨⟩
      exact ⟨by simpa using hn, by simp⟩
  case storeWq work =>
    have hu := update_true_toInt (hs work rfl) w
    refine ⟨?_, ?_, by simp⟩
    · simp only [CallPc.storing, Bool.toInt_false]
      omega
    · simp only [CallPc.accepts, Bool.toInt_false]
      omega
  all_goals simp_all [Shared.unlock, Shared.useCond]

private theorem CallAct.order {pc pc' : CallPc ω} (h : CallAct σ pc σ' pc' e)
    (ho : σ.accepted = σ.taken ++ σ.workList) : σ'.accepted = σ'.taken ++ σ'.workList := by
  cases h
  all_goals simp_all [Shared.unlock, Shared.useCond]

private theorem CallAct.executes {pc pc' : CallPc ω} (h : CallAct σ pc σ' pc' e) :
    σ'.taken = σ.taken ∧ σ'.called = σ.called ∧ σ'.finished = σ.finished := by
  cases h
  all_goals exact ⟨rfl, rfl, rfl⟩

omit [DecidableEq ω] in
/-- The owner leaves the works alone. -/
theorem OwnerAct.works {n : Nat} {o o' : OwnerPc} (h : OwnerAct n ok σ o σ' o' e)
    (hb : o.begun) : σ'.workList = σ.workList ∧ σ'.wq = σ.wq ∧ σ'.accepted = σ.accepted ∧
      σ'.taken = σ.taken ∧ σ'.called = σ.called ∧ σ'.finished = σ.finished := by
  cases h
  all_goals first
    | exact ⟨rfl, rfl, rfl, rfl, rfl, rfl⟩
    | cases hb

end Local

section Global
variable {n : Nat} {s t : State ω}

private theorem number_storing_le (w : ω) (cs : List (CallPc ω)) :
    number (CallPc.storing w) cs ≤ number CallPc.critical cs :=
  number_le_number fun pc _ h => by cases pc <;> simp_all

theorem Delivered.not_storing (hd : Delivered s) {w : ω} (hw : s.shared.wq w = true) :
    number (CallPc.storing w) s.calls = 0 := by
  refine number_eq_zero.mpr fun pc hpc => ?_
  cases pc with
  | storeWq x =>
    apply beq_eq_false_iff_ne.mpr
    rintro rfl
    rw [(hd.storing x hpc).1] at hw
    cases hw
  | _ => rfl

/-- A work that a worker holds is still marked. -/
private theorem Delivered.wq_of_held (hd : Delivered s) (ha : Accounted n s) {w : ω}
    {pc : WorkerPc ω} (hm : pc ∈ s.workers) (hh : pc.holds w) : s.shared.wq w = true := by
  have hheld := hd.held w
  have hpos := number_pos.mpr ⟨pc, hm, hh⟩
  have hle := number_storing_le w s.calls
  have hl := ha.lock
  have h1 := toInt_le_one s.shared.locked
  have h2 := number_nonneg WorkerPc.critical s.workers
  have h3 := toInt_nonneg s.owner.critical
  by_contra hw
  rw [Bool.not_eq_true] at hw
  rw [hw, Bool.toInt_false] at hheld
  obtain ⟨c, hc, hst⟩ := number_pos.mp (by omega : 0 < number (CallPc.storing w) s.calls)
  cases c with
  | storeWq x =>
    obtain rfl : x = w := by simpa using hst
    have hcount := List.count_pos_iff.mpr (hd.storing x hc).2
    omega
  | _ => cases hst

/-- While a call is in its critical section no other call takes a step. -/
theorem Accounted.call_alone (ha : Accounted n s) {j k : Nat} {c pc pc' : CallPc ω} {σ : Shared ω}
    {e : Effect} (hj : s.calls[j]? = some c) (hc : c.critical) (hk : s.calls[k]? = some pc)
    (hs : CallAct s.shared pc σ pc' e) : j = k := by
  by_contra hne
  obtain ⟨hl, -, hone, -⟩ := ha.call_holds (List.mem_of_getElem? hj) hc
  have hcrit : pc.critical = false := by
    have hle := add_le_total (f := fun c : CallPc ω => c.critical.toInt)
      (fun c => toInt_nonneg c.critical) hj hk hne
    have hsum : c.critical.toInt + pc.critical.toInt ≤ number CallPc.critical s.calls := hle
    rw [hc, Bool.toInt_true] at hsum
    by_contra hp
    rw [Bool.not_eq_false] at hp
    rw [hp, Bool.toInt_true] at hsum
    omega
  cases hs with
  | lock hfree => cases hl.symm.trans hfree
  | _ => cases hcrit

theorem Delivered.move (hd : Delivered s) (ha : Accounted n s) (hm : Move n s t) : Delivered t := by
  cases hm with
  | @worker _ _ pc pc' _ _ _ hk hs hw =>
    have hmem := List.mem_of_getElem? hk
    have hclear : ∀ x, pc = .clearWq x → s.shared.wq x = true := fun x hx =>
      hd.wq_of_held ha hmem (by simp [hx])
    refine ⟨hs.order hd.order, fun w hw' => ?_, fun w => ?_, fun w => ?_, fun w => ?_,
      fun w => ?_⟩
    · obtain ⟨hlock, hzero, -⟩ := ha.call_holds hw' rfl
      have hcrit := number_eq_zero.mp hzero pc hmem
      obtain ⟨hlist, hwq⟩ := hs.outside hlock hcrit w
      obtain ⟨hno, hin⟩ := hd.storing w hw'
      exact ⟨hwq hno, hlist ▸ hin⟩
    · have hn := set_perform_number (P := WorkerPc.holds w) rfl rfl hk hw
      have hdel := (hs.delivery hclear w).1
      have hold := hd.held w
      simp only
      omega
    · have hdel := (hs.delivery hclear w).2
      have hold := hd.finished w
      simp only
      omega
    · have hn := set_perform_number (P := WorkerPc.holds w) rfl rfl hk hw
      have hex := (hs.executes w).1
      have hold := hd.taken w
      simp only
      omega
    · have hn := set_perform_number (P := WorkerPc.ending w) rfl rfl hk hw
      have hex := (hs.executes w).2
      have hold := hd.called w
      simp only
      omega
  | wake hw =>
    refine ⟨hd.order, hd.storing, fun w => ?_, hd.finished, fun w => ?_, fun w => ?_⟩
    · rw [wakeWorker_number (P := WorkerPc.holds w) rfl hw]
      exact hd.held w
    · rw [wakeWorker_number (P := WorkerPc.holds w) rfl hw]
      exact hd.taken w
    · rw [wakeWorker_number (P := WorkerPc.ending w) rfl hw]
      exact hd.called w
  | submit =>
    refine ⟨hd.order, fun w hw => hd.storing w (by simpa using hw), fun w => ?_, fun w => ?_,
      hd.taken, hd.called⟩
    · simpa using hd.held w
    · simpa using hd.finished w
  | @call k _ pc pc' _ _ _ hk hs hw =>
    have hmem := List.mem_of_getElem? hk
    have hstore : ∀ x, pc = .storeWq x → s.shared.wq x = false := fun x hx =>
      (hd.storing x (hx ▸ hmem)).1
    obtain ⟨htaken, hcalled, hfinished⟩ := hs.executes
    refine ⟨hs.order hd.order, fun w hw' => ?_, fun w => ?_, fun w => ?_, fun w => ?_,
      fun w => ?_⟩
    · obtain ⟨j, hj⟩ := List.getElem?_of_mem hw'
      by_cases hjk : j = k
      · have hpc : pc' = .storeWq w := by
          rw [hjk, List.getElem?_set_self (List.getElem?_eq_some_iff.mp hk).1] at hj
          exact Option.some.inj hj
        exact (hs.delivery hstore w).2.2 hpc
      · rw [List.getElem?_set_ne (Ne.symm hjk)] at hj
        exact absurd (ha.call_alone hj rfl hk hs) hjk
    · have hn := perform_number (P := WorkerPc.holds w) rfl rfl hw
      have hc := number_set (CallPc.storing w) pc' hk
      have hdel := (hs.delivery hstore w).1
      have hold := hd.held w
      simp only
      omega
    · have hc := number_set (CallPc.accepts w) pc' hk
      have hdel := (hs.delivery hstore w).2.1
      have hold := hd.finished w
      simp only
      omega
    · rw [perform_number (P := WorkerPc.holds w) rfl rfl hw, htaken, hfinished]
      exact hd.taken w
    · rw [perform_number (P := WorkerPc.ending w) rfl rfl hw, hcalled, hfinished]
      exact hd.called w
  | owner hs hw =>
    obtain ⟨h1, h2, h3, h4, h5, h6⟩ := hs.works ha.begun
    refine ⟨?_, ?_, fun w => ?_, ?_, fun w => ?_, fun w => ?_⟩
    · rw [h3, h4, h1]
      exact hd.order
    · rw [h1, h2]
      exact hd.storing
    · rw [perform_number (P := WorkerPc.holds w) rfl rfl hw, h1, h2]
      exact hd.held w
    · rw [h2, h6]
      exact hd.finished
    · rw [perform_number (P := WorkerPc.holds w) rfl rfl hw, h4, h6]
      exact hd.taken w
    · rw [perform_number (P := WorkerPc.ending w) rfl rfl hw, h5, h6]
      exact hd.called w

end Global
section Runs
variable {n : Nat} {old : WorkqueueStruct ω} {name : String} {s : State ω}

theorem opened_delivered (n : Nat) (old : WorkqueueStruct ω) (name : String) :
    Delivered (opened n old name) := by
  refine ⟨rfl, nofun, fun w => ?_, fun w => ?_, fun w => ?_, fun w => ?_⟩ <;>
    simp [opened, initial, assignFields]

theorem reachable_delivered (h : Reachable (step n) (opened n old name) s) :
    Accounted n s ∧ Delivered s :=
  h.invariant (P := fun s => Accounted n s ∧ Delivered s)
    ⟨(opened_sound n old name).accounted, opened_delivered n old name⟩
    fun hi he => ⟨hi.1.move (step_move he), hi.2.move hi.1 (step_move he)⟩

theorem Delivered.succeeded_le (hd : Delivered s) (w : ω) :
    (s.calls.countP (CallPc.succeeded w) : Int) ≤
      s.shared.finished.count w + (s.shared.wq w).toInt := by
  rw [← hd.finished w, ← number_eq_countP]
  exact number_le_number fun pc _ h => by cases pc <;> simp_all

/-- While `wq` is not set nobody executes the work. -/
theorem Delivered.called_of_null (hd : Delivered s) (ha : Accounted n s) {w : ω}
    (hw : s.shared.wq w = false) : s.shared.called.count w = s.shared.finished.count w := by
  have hend : number (WorkerPc.ending w) s.workers = 0 := number_eq_zero.mpr fun pc hpc => by
    by_contra hpe
    have hholds : pc.holds w := by cases pc <;> simp_all
    rw [hd.wq_of_held ha hpc hholds] at hw
    cases hw
  have hcalled := hd.called w
  omega

theorem Delivered.executed (hd : Delivered s) (ha : Accounted n s) {w : ω}
    (hw : s.shared.wq w = false)
    (hret : number (CallPc.succeeded w) s.calls = number (CallPc.accepts w) s.calls) :
    Executed w s := by
  have hfin := hd.finished w
  rw [← hret, hw, Bool.toInt_false, number_eq_countP] at hfin
  have hcalled := hd.called_of_null ha hw
  exact ⟨by omega, by omega⟩

/-- Whenever the lock is free, the calls that returned 0 and the finished executions of a work
differ by whether the work is marked. An execution calls the work's function and then ends: a
work has been called and finished as often as it was taken, but for the worker that holds it.
When `flush_work` reads NULL every accepted submission has been executed; a marked work is on
the list once or held by one worker; and the works leave the list in the order in which they
were accepted. -/
theorem executed_once_in_order (h : Reachable (step n) (initial old name) s)
    (hi : s.owner.initialised) (w : ω) :
    (s.shared.locked = false → (s.calls.countP (CallPc.succeeded w) : Int) -
      s.shared.finished.count w = if s.shared.wq w then 1 else 0) ∧
    (s.shared.taken.count w = s.shared.finished.count w + s.workers.countP (WorkerPc.holds w) ∧
      s.shared.called.count w =
        s.shared.finished.count w + s.workers.countP (WorkerPc.ending w)) ∧
    (flushReturns s.shared w →
      s.calls.countP (CallPc.succeeded w) ≤ s.shared.finished.count w ∧
      s.shared.called.count w = s.shared.finished.count w) ∧
    (s.shared.wq w →
      (s.shared.workList.count w = 1 ∧ s.workers.countP (WorkerPc.holds w) = 0) ∨
      (s.shared.workList.count w = 0 ∧ s.workers.countP (WorkerPc.holds w) = 1)) ∧
    s.shared.accepted = s.shared.taken ++ s.shared.workList := by
  obtain ⟨ha, hd⟩ := reachable_delivered (reachable_initialised h hi)
  refine ⟨fun hl => ?_, ⟨?_, ?_⟩, fun hf => ?_, fun hw => ?_, hd.order⟩
  · have hsame : number (CallPc.succeeded w) s.calls = number (CallPc.accepts w) s.calls :=
      number_congr fun pc hpc => by have := ha.call_outside hl hpc; cases pc <;> simp_all
    have hfin := hd.finished w
    rw [← number_eq_countP, hsame]
    cases hw : s.shared.wq w <;> simp_all
  · have htaken := hd.taken w
    rw [number_eq_countP] at htaken
    exact_mod_cast htaken
  · have hcalled := hd.called w
    rw [number_eq_countP] at hcalled
    exact_mod_cast hcalled
  · have hle := hd.succeeded_le w
    have hnull : s.shared.wq w = false := by simpa [flushReturns] using hf
    rw [hnull, Bool.toInt_false] at hle
    exact ⟨by omega, hd.called_of_null ha hnull⟩
  · have hheld := hd.held w
    rw [hd.not_storing hw, hw, Bool.toInt_true, number_eq_countP] at hheld
    omega

theorem one_work_queued : ∃ s : State Nat, Reachable (step 1) (initial unset "wq") s ∧
    s.calls = [.returned 5 .ok] ∧ s.shared.called = [5] ∧ s.workers = [.clearWq 5] ∧
    s.shared.workList.count 5 = 0 ∧ s.workers.countP (WorkerPc.holds 5) = 1 := by
  have hr := Reachable.get (step 1) (initial unset "wq")
    (List.flatten [.replicate 7 (.owner true none), .replicate 7 (.worker 0 true),
      .submit 5 :: .replicate 5 (.call 0 (some 0)), .replicate 5 (.worker 0 true)]) rfl
  have hx := (executed_once_in_order hr rfl 5).2.2.2.1 rfl
  exact ⟨_, hr, rfl, rfl, rfl, hx.resolve_left fun hn => nomatch hn.1⟩

end Runs
end CommonProject.Workqueue
