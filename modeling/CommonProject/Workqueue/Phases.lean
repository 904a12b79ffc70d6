import CommonProject.Workqueue.Accounting

/-! The queue is set up, open for works, and closed. -/
namespace CommonProject.Workqueue
open Foundations
variable {ω : Type}

/-- How many workers have been created while `init_workqueue` runs or after it failed. -/
@[simp] def OwnerPc.setup : OwnerPc → Option Nat
  | .loop i | .create i | .uncount i | .cleanTest i | .cleanSignal i | .cleanDestroy i => some i
  | .exitTest c | .exitSignal c | .exitLock c | .exitUnlock c => c.created
  | .lockDestroy i | .failed i => i
  | _ => none

/-- Where a worker can be that has met no work. -/
@[simp] def WorkerPc.fresh : WorkerPc ω → Bool
  | .created | .startIdle | .startCount | .wakeUp | .fetch | .checkAlive | .surplusTest | .blocked
  | .woken => true
  | _ => false

section Local
variable {n : Nat} {ok : Bool} {σ σ' : Shared ω} {e : Effect}

/-- Without works and surplus, a worker stays fresh and touches no list. -/
private theorem WorkerAct.fresh [DecidableEq ω] {pc pc' : WorkerPc ω}
    (h : WorkerAct ok σ pc σ' pc' e) (hpc : pc.fresh) (ha : σ.alive)
    (hl : σ.workList = []) (hi : σ.nrIdleWorker ≤ σ.nrMaxIdleWorker) :
    pc'.fresh ∧ σ'.workList = [] ∧ e = .none := by
  cases h
  all_goals simp_all [Shared.unlock, Shared.useCond]
  omega

private theorem OwnerAct.closed {pc pc' : OwnerPc} (h : OwnerAct n ok σ pc σ' pc' e)
    (hb : pc.begun) (ha : σ.alive = !pc.closed) : σ'.alive = !pc'.closed := by
  cases h
  all_goals simp_all [Shared.unlock, Shared.useCond, Shared.warn]

/-- Where the number of created workers comes from. -/
theorem OwnerAct.setup {pc pc' : OwnerPc} (h : OwnerAct n ok σ pc σ' pc' e)
    (hb : pc.begun) {j : Nat} (hj : pc'.setup = some j) :
    σ'.workList = σ.workList ∧ ((pc.setup = some j ∧ e ≠ .spawn ∧ (pc'.creating → pc.creating ∨ j < n)) ∨
      ∃ i, pc = .create i ∧ pc' = .loop (i + 1) ∧ e = .spawn) := by
  cases h
  all_goals simp_all [Shared.unlock, Shared.useCond, Shared.warn]

private theorem OwnerAct.initialised {pc pc' : OwnerPc} (h : OwnerAct n ok σ pc σ' pc' e)
    (hb : pc.begun) (hi : pc'.initialised) :
    pc.initialised ∨ ∃ i, pc = .loop i ∧ n ≤ i := by
  cases h
  all_goals simp_all [OwnerPc.initialised, OwnerPc.accepting]

end Local

/-- How far the threads have come in each phase of the owner. -/
structure Phased (n : Nat) (s : State ω) : Prop where
  alive : s.shared.alive = !s.owner.closed
  creating : s.owner.creating → ∀ i, s.owner.setup = some i → i < n
  setup : ∀ i, s.owner.setup = some i → i ≤ n ∧ s.workers.length = i ∧ s.calls = [] ∧
    s.shared.workList = [] ∧ ∀ pc ∈ s.workers, pc.fresh
  populated : s.owner.initialised → n ≤ s.workers.length

section Global
variable {n : Nat} {s t : State ω}

private theorem OwnerPc.not_closed_of_setup {pc : OwnerPc} {i : Nat} (h : pc.setup = some i) :
    pc.closed = false ∧ pc.accepting = false := by
  cases pc <;> simp_all [OwnerPc.accepting]

/-- As long as the queue is set up there is room for every created worker to wait. -/
private theorem Phased.room (hp : Phased n s) (ha : Accounted n s) {i : Nat}
    (hi : s.owner.setup = some i) : s.shared.nrIdleWorker ≤ s.shared.nrMaxIdleWorker := by
  obtain ⟨hn, hl, -⟩ := hp.setup i hi
  have hw := number_le_length WorkerPc.idle s.workers
  have h1 := ha.idle
  have h2 := ha.maxIdle
  omega

theorem Phased.refs_le (hp : Phased n s) (ha : Accounted n s) {i : Nat}
    (hi : s.owner.setup = some i) :
    s.shared.refCount = i + s.owner.creating.toInt ∧ s.shared.refCount ≤ n := by
  obtain ⟨hn, hl, -, -, hf⟩ := hp.setup i hi
  have ht : total WorkerPc.refs s.workers = i := by
    rw [← hl, ← total_one]
    refine le_antisymm (total_le_total fun pc hpc => ?_) (total_le_total fun pc hpc => ?_)
    · have := hf pc hpc
      cases pc <;> simp_all
    · have := hf pc hpc
      cases pc <;> simp_all
  have hr := ha.refs
  rw [ht] at hr
  refine ⟨hr, ?_⟩
  cases hc : s.owner.creating with
  | false =>
    rw [hc, Bool.toInt_false] at hr
    omega
  | true =>
    have := hp.creating hc i hi
    rw [hc, Bool.toInt_true] at hr
    omega

variable [DecidableEq ω]

private theorem perform_length_le {target : Option Nat} {ws ws' : List (WorkerPc ω)} {e : Effect}
    (h : perform target ws e = some ws') : ws.length ≤ ws'.length := by
  have hl := perform_length h
  split at hl <;> omega

theorem Phased.move (hp : Phased n s) (ha : Accounted n s) (hm : Move n s t) : Phased n t := by
  cases hm with
  | worker hk hs hw =>
    have hset := hs.setup
    refine ⟨hset.alive.trans hp.alive, hp.creating, fun i hi => ?_, fun hi => ?_⟩
    · obtain ⟨hn, hl, hc, hw', hf⟩ := hp.setup i hi
      have halive : s.shared.alive = true := by
        rw [hp.alive, (OwnerPc.not_closed_of_setup hi).1]
        rfl
      obtain ⟨hf', hnil, rfl⟩ :=
        hs.fresh (hf _ (List.mem_of_getElem? hk)) halive hw' (hp.room ha hi)
      cases hw
      refine ⟨hn, by simpa using hl, hc, hnil, fun pc hpc => ?_⟩
      rcases List.mem_or_eq_of_mem_set hpc with hm | rfl
      · exact hf pc hm
      · exact hf'
    · have hle := perform_length_le hw
      have hn := hp.populated hi
      rw [List.length_set] at hle
      exact hn.trans hle
  | wake hw =>
    obtain ⟨-, rfl⟩ := wakeWorker_eq_some.mp hw
    refine ⟨hp.alive, hp.creating, fun i hi => ?_, fun hi => by simpa using hp.populated hi⟩
    obtain ⟨hn, hl, hc, hw', hf⟩ := hp.setup i hi
    refine ⟨hn, by simpa using hl, hc, hw', fun pc hpc => ?_⟩
    rcases List.mem_or_eq_of_mem_set hpc with hm | rfl
    · exact hf pc hm
    · rfl
  | submit hacc =>
    refine ⟨hp.alive, hp.creating, fun i hi => ?_, hp.populated⟩
    rw [(OwnerPc.not_closed_of_setup hi).2] at hacc
    cases hacc
  | call hk hs hw =>
    have hset := hs.setup.1
    refine ⟨hset.alive.trans hp.alive, hp.creating, fun i hi => ?_, fun hi => ?_⟩
    · obtain ⟨-, -, hc, -⟩ := hp.setup i hi
      rw [hc] at hk
      cases hk
    · exact (hp.populated hi).trans (perform_length_le hw)
  | @owner _ _ pc' _ _ _ hs hw =>
    have hlen := perform_length hw
    refine ⟨hs.closed ha.begun hp.alive, fun hc j hj => ?_, fun j hj => ?_, fun hi => ?_⟩
    · obtain ⟨-, ⟨hsame, -, hlt⟩ | ⟨i, -, rfl, -⟩⟩ := hs.setup ha.begun hj
      · exact (hlt hc).elim (fun hcr => hp.creating hcr j hsame) id
      · cases hc
    · obtain ⟨hlist, ⟨hsame, he, -⟩ | ⟨i, hi, rfl, rfl⟩⟩ := hs.setup ha.begun hj
      · obtain ⟨hn, hl, hc, hw', hf⟩ := hp.setup j hsame
        rw [if_neg he] at hlen
        exact ⟨hn, by simp only; omega, hc, hlist.trans hw', perform_forall rfl rfl hw hf⟩
      · obtain rfl : i + 1 = j := by simpa using hj
        obtain ⟨hn, hl, hc, hw', hf⟩ := hp.setup i (by rw [hi]; rfl)
        rw [if_pos rfl] at hlen
        have hlt := hp.creating (by rw [hi]; rfl) i (by rw [hi]; rfl)
        exact ⟨hlt, by simp only; omega, hc, hlist.trans hw', perform_forall rfl rfl hw hf⟩
    · rcases hs.initialised ha.begun hi with hin | ⟨i, hi, hle⟩
      · exact (hp.populated hin).trans (perform_length_le hw)
      · obtain ⟨-, hl, -⟩ := hp.setup i (by rw [hi]; rfl)
        have := perform_length_le hw
        simp only
        omega

end Global
end CommonProject.Workqueue
