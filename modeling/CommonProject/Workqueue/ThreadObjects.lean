import CommonProject.Foundations.Progress
import CommonProject.Workqueue.FailedInit

/-! The thread objects of the workers that have terminated. -/
namespace CommonProject.Workqueue
open Foundations
variable {ω : Type}

/-- Nothing joins or detaches a worker, so every one that was created keeps its object. -/
def threadObjects (s : State ω) : Nat := s.workers.length

/-- The worker has given up its reference to terminate. -/
@[simp] def WorkerPc.gone : WorkerPc ω → Bool
  | .leaveUnlock | .exited => true
  | _ => false

@[simp] def WorkerPc.expecting : WorkerPc ω → Bool
  | .spawn | .unspawn => true
  | _ => false

def Creates (s : State ω) (e : Event ω) : Prop :=
  ∃ k, e = .worker k true ∧ s.workers[k]? = some .spawn

section Global
variable {n : Nat} {s t : State ω}

private theorem Accounted.refs_at_spawn (ha : Accounted n s) (hc : s.owner.creating = false)
    (hm : .spawn ∈ s.workers) :
    (s.workers.countP WorkerPc.gone : Int) + s.shared.refCount = threadObjects s + 1 := by
  have hone : number WorkerPc.expecting s.workers = 1 := by
    have hpos := number_pos.mpr ⟨_, hm, (rfl : WorkerPc.spawn.expecting = true)⟩
    have hcrit := (ha.worker_holds hm rfl).2.1
    have hle : number WorkerPc.expecting s.workers ≤ number WorkerPc.critical s.workers :=
      number_le_number fun pc _ h => by cases pc <;> simp_all
    omega
  have hsum : number WorkerPc.gone s.workers + total WorkerPc.refs s.workers =
      total (fun _ => 1) s.workers + number WorkerPc.expecting s.workers := by
    rw [number, number, ← total_add, ← total_add]
    exact total_congr fun pc _ => by cases pc <;> simp
  have hr := ha.refs
  rw [hc, Bool.toInt_false] at hr
  rw [hone, total_one] at hsum
  rw [← number_eq_countP, threadObjects]
  omega

variable [DecidableEq ω]

private theorem step_creates {e : Event ω} (h : step n s e = some t) (hc : Creates s e) :
    threadObjects t = threadObjects s + 1 ∧ t.owner = s.owner ∧
    t.shared.nrMaxWorker = s.shared.nrMaxWorker := by
  obtain ⟨k, rfl, hk⟩ := hc
  simp only [step, hk, workerStep, perform] at h
  cases h
  simp [threadObjects]

private theorem WorkerAct.spawn {ok : Bool} {σ σ' : Shared ω} {pc pc' : WorkerPc ω}
    (h : WorkerAct ok σ pc σ' pc' .spawn) : ok = true ∧ pc = .spawn := by
  cases h
  exact ⟨‹_›, rfl⟩

private theorem perform_length_eq {target : Option Nat} {ws ws' : List (WorkerPc ω)} {e : Effect}
    (h : perform target ws e = some ws') (he : e ≠ .spawn) : ws'.length = ws.length := by
  have hl := perform_length h
  rw [if_neg he] at hl
  omega

/-- Only the owner creates workers otherwise, while it sets the queue up. -/
private theorem step_not_creates {e : Event ω} (h : step n s e = some t) (hc : ¬ Creates s e) :
    threadObjects t = threadObjects s ∨ t.owner.setup ≠ none := by
  cases e with
  | worker k ok =>
    obtain ⟨pc, pc', σ, e, ws, hk, hs, hw, rfl⟩ := step_worker_inv h
    have he : e ≠ .spawn := fun he => by
      obtain ⟨rfl, rfl⟩ := WorkerAct.spawn (he ▸ hs)
      exact hc ⟨k, rfl, hk⟩
    exact .inl (by simpa [threadObjects] using perform_length_eq hw he)
  | wake k =>
    obtain ⟨ws, hw, rfl⟩ := step_wake_inv h
    obtain ⟨-, rfl⟩ := wakeWorker_eq_some.mp hw
    exact .inl (by simp [threadObjects])
  | submit work =>
    obtain ⟨-, rfl⟩ := step_submit_inv h
    exact .inl rfl
  | call k target =>
    obtain ⟨pc, pc', σ, e, ws, -, hs, hw, rfl⟩ := step_call_inv h
    exact .inl (perform_length_eq hw hs.setup.2.2.2.2)
  | owner ok target =>
    obtain ⟨pc', σ, e, ws, hs, hw, rfl⟩ := step_owner_inv h
    by_cases he : e = .spawn
    · exact .inr (OwnerAct.spawn (he ▸ hs))
    · exact .inl (perform_length_eq hw he)

end Global

section Runs
variable [DecidableEq ω] {n : Nat} {old : WorkqueueStruct ω} {name : String} {s : State ω}

private theorem initialised_of_spawn (h : Reachable (step n) (initial old name) s)
    (hm : .spawn ∈ s.workers) : s.owner.initialised ∧ Reachable (step n) (opened n old name) s := by
  rcases reachable_opened h with ho | hr
  · rw [ho.workers] at hm
    cases hm
  · obtain ⟨ha, hp, -⟩ := reachable_quiet hr
    refine ⟨(OwnerPc.setup_or_initialised ha.begun).resolve_left fun hne => ?_, hr⟩
    obtain ⟨i, hi⟩ := Option.ne_none_iff_exists'.mp hne
    cases (hp.setup i hi).2.2.2.2 _ hm

private theorem reachable_max (h : Reachable (step n) (initial old name) s) (hb : s.owner.begun) :
    s.shared.nrMaxWorker = n * multipleCpus := by
  rcases reachable_opened h with ho | hr
  · rw [ho.notBegun] at hb
    cases hb
  · exact (reachable_quiet hr).1.maxWorker

/-- In the set-up there are no more workers than processors. -/
private theorem setup_objects_le (h : Reachable (step n) (initial old name) s) (hb : s.owner.begun)
    (hne : s.owner.setup ≠ none) : (threadObjects s : Int) ≤ n * multipleCpus := by
  obtain ⟨i, hi⟩ := Option.ne_none_iff_exists'.mp hne
  rcases reachable_opened h with ho | hr
  · rw [ho.notBegun] at hb
    cases hb
  · obtain ⟨hn, hl, -⟩ := (reachable_quiet hr).2.1.setup i hi
    rw [threadObjects, hl, multipleCpus]
    omega

/-- Before any worker has left, the references that the code bounds count all thread objects. -/
private theorem objects_le_of_none_gone (hn : 1 ≤ n) (h : Reachable (step n) (initial old name) s)
    (hm : .spawn ∈ s.workers) (hg : ∀ pc ∈ s.workers, pc.gone = false) :
    (threadObjects s + 1 : Int) ≤ n * multipleCpus := by
  obtain ⟨hi, hr⟩ := initialised_of_spawn h hm
  have hs := reachable_sound hn hr
  have hsum := hs.accounted.refs_at_spawn (OwnerPc.not_creating hi) hm
  have hzero : s.workers.countP WorkerPc.gone = 0 :=
    List.countP_eq_zero.mpr fun pc hpc => by rw [hg pc hpc]; exact Bool.false_ne_true
  rw [hzero, Nat.cast_zero, zero_add] at hsum
  rw [← hsum, ← hs.accounted.maxWorker]
  exact hs.bounded.refs

/-- Along a run in which `process_one_work` creates workers only while no worker has left yet,
the thread objects stay bounded. -/
theorem thread_objects_bounded (hn : 1 ≤ n) {es : List (Event ω)}
    (hstay : ∀ k t e, run (step n) (initial old name) (es.take k) = some t → es[k]? = some e →
      Creates t e → ∀ pc ∈ t.workers, pc.gone = false) {k : Nat} {t : State ω}
    (ht : run (step n) (initial old name) (es.take k) = some t) (hi : t.owner.initialised) :
    (threadObjects t : Int) ≤ t.shared.nrMaxWorker := by
  rw [reachable_max ⟨_, ht⟩ (OwnerPc.begun_of_initialised hi)]
  refine run_invariant (P := fun t => t.owner.begun → (threadObjects t : Int) ≤ n * multipleCpus)
    (fun hb => nomatch hb) (fun {k a e b} ha he hstep hle hb => ?_) ht
    (OwnerPc.begun_of_initialised hi)
  have hra : Reachable (step n) (initial old name) a := ⟨_, ha⟩
  by_cases hc : Creates a e
  · obtain ⟨j, -, hj⟩ := id hc
    rw [(step_creates hstep hc).1]
    exact objects_le_of_none_gone hn hra (List.mem_of_getElem? hj) (hstay k a e ha he hc)
  · rcases step_not_creates hstep hc with hsame | hset
    · rw [hsame]
      rcases reachable_opened hra with ho | hr
      · rw [threadObjects, ho.workers, multipleCpus, List.length_nil]
        omega
      · exact hle (reachable_quiet hr).1.begun
    · exact setup_objects_le (hra.tail hstep) hb hset

def firstBurst : List (Event Nat) :=
  List.flatten [.replicate 7 (.owner true none), .replicate 7 (.worker 0 true),
    .submit 0 :: .replicate 5 (.call 0 (some 0)), .submit 1 :: .replicate 5 (.call 1 none),
    .submit 2 :: .replicate 5 (.call 2 none), .replicate 9 (.worker 0 true)]

theorem additional_worker_bounded :
    Creates (outcome (step 1) (initial unset "wq") (firstBurst.take 40)) (.worker 0 true) ∧
    firstBurst = firstBurst.take 40 ++ [.worker 0 true] ∧
    threadObjects (outcome (step 1) (initial unset "wq") firstBurst) = 2 ∧
    (threadObjects (outcome (step 1) (initial unset "wq") firstBurst) : Int) ≤
      (outcome (step 1) (initial unset "wq") firstBurst).shared.nrMaxWorker := by
  have hnone : ∀ k < 41, ((run (step 1) (initial unset "wq") (firstBurst.take k)).all fun t =>
      t.workers.all fun pc => !pc.gone) = true := by decide +kernel
  have hrun : run (step 1) (initial unset "wq") (firstBurst.take 41) =
      some (outcome (step 1) (initial unset "wq") firstBurst) := run_outcome (by decide +kernel)
  refine ⟨⟨0, rfl, by decide +kernel⟩, rfl, by decide +kernel,
    thread_objects_bounded le_rfl (fun k t e ht he _ => ?_) hrun (by decide +kernel)⟩
  have hk := hnone k (List.getElem?_eq_some_iff.mp he).1
  rw [ht] at hk
  simpa using hk

/-- Two bursts of works on one processor: the first one's two additional workers have left when
the second one creates another, the fourth thread object where three is the maximum. -/
theorem thread_objects_accumulate : ¬ ∀ s : State Nat,
    Reachable (step 1) (initial unset "wq") s → s.owner.initialised →
    (threadObjects s : Int) ≤ s.shared.nrMaxWorker := by
  intro h
  have hr := Reachable.get (step 1) (initial unset "wq")
    (List.flatten [.replicate 7 (.owner true none), .replicate 7 (.worker 0 true),
      .submit 0 :: .replicate 5 (.call 0 (some 0)), .submit 1 :: .replicate 5 (.call 1 none),
      .submit 2 :: .replicate 5 (.call 2 none), .replicate 25 (.worker 0 true),
      .replicate 10 (.worker 1 true), .replicate 10 (.worker 2 true),
      .submit 3 :: .replicate 5 (.call 3 (some 0)), .submit 4 :: .replicate 5 (.call 4 none),
      .replicate 9 (.worker 0 true)]) rfl
  exact absurd (h _ hr rfl) (by decide)

end Runs
end CommonProject.Workqueue
