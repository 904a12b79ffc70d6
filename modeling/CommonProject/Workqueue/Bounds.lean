import CommonProject.Workqueue.Phases

/-! How many workers there are, and how many of them wait. -/
namespace CommonProject.Workqueue
open Foundations
variable {ω : Type}

structure Bounded (n : Nat) (s : State ω) : Prop where
  waiting : number WorkerPc.waiting s.workers ≤ n
  refs : s.shared.refCount ≤ s.shared.nrMaxWorker
  staying : s.shared.alive → s.workers ≠ [] → 0 < number WorkerPc.staying s.workers

section Local
variable [DecidableEq ω] {ok : Bool} {σ σ' : Shared ω} {e : Effect} {pc pc' : WorkerPc ω}

private theorem WorkerAct.waiting (h : WorkerAct ok σ pc σ' pc' e) :
    pc'.waiting.toInt ≤ pc.waiting.toInt ∨ σ'.nrIdleWorker ≤ σ'.nrMaxIdleWorker := by
  cases h
  all_goals simp_all [Shared.unlock, Shared.useCond]

private theorem WorkerAct.refs (h : WorkerAct ok σ pc σ' pc' e) :
    σ'.refCount ≤ σ.refCount ∨ σ'.refCount ≤ σ'.nrMaxWorker := by
  cases h
  case growNeeded hn =>
    simp only [Shared.needsWorker, Bool.and_eq_true, decide_eq_true_eq] at hn
    exact .inr (Int.add_one_le_of_lt hn.2)
  case unspawn | leaveRef => exact .inl (Int.sub_le_self _ Int.one_nonneg)
  all_goals exact .inl (Int.le_refl _)

/-- Workers leave when the queue is closed or there are too many waiting. -/
private theorem WorkerAct.staying (h : WorkerAct ok σ pc σ' pc' e) :
    pc.staying.toInt ≤ pc'.staying.toInt ∨ σ.alive = false ∨ σ.nrMaxIdleWorker < σ.nrIdleWorker := by
  cases h
  all_goals simp_all

private theorem perform_staying {target : Option Nat} {ws ws' : List (WorkerPc ω)}
    (h : perform target ws e = some ws') :
    number WorkerPc.staying ws ≤ number WorkerPc.staying ws' ∧
    (ws = [] → ws' ≠ [] → 0 < number WorkerPc.staying ws') := by
  have hn : number WorkerPc.staying ws' = number WorkerPc.staying ws + if e = .spawn then 1 else 0 :=
    perform_total (f := fun pc => pc.staying.toInt) rfl h
  have hl := perform_length h
  have h0 := number_nonneg WorkerPc.staying ws
  split at hn
  · exact ⟨by omega, fun _ _ => by omega⟩
  · refine ⟨by omega, fun hnil hne => absurd ?_ hne⟩
    rw [hnil, if_neg ‹_›] at hl
    exact List.length_eq_zero_iff.mp (by simpa using hl)

end Local

section Owner
variable {n : Nat} {ok : Bool} {σ σ' : Shared ω} {e : Effect} {o o' : OwnerPc}

private theorem OwnerAct.alive (h : OwnerAct n ok σ o σ' o' e) (hb : o.begun)
    (ha : σ'.alive) : σ.alive := by
  cases h
  all_goals simp_all [Shared.unlock, Shared.useCond, Shared.warn]

theorem OwnerAct.spawn (h : OwnerAct n ok σ o σ' o' .spawn) : o'.setup ≠ none := by
  cases h
  all_goals simp_all

private theorem OwnerPc.setup_of_creating (h : o.creating) : o.setup ≠ none := by
  cases o <;> simp_all

end Owner

section Global
variable {n : Nat} {s t : State ω}

private theorem Accounted.waiting_le_idle (ha : Accounted n s) :
    number WorkerPc.waiting s.workers ≤ s.shared.nrIdleWorker := by
  rw [ha.idle]
  refine number_le_number fun pc _ h => ?_
  cases pc <;> simp_all

private theorem Accounted.idle_le_staying (ha : Accounted n s) :
    s.shared.nrIdleWorker ≤ number WorkerPc.staying s.workers := by
  rw [ha.idle]
  refine number_le_number fun pc _ h => ?_
  cases pc <;> simp_all

variable [DecidableEq ω]

/-- A surplus worker leaves at least as many others waiting as may wait. -/
private theorem Bounded.worker_staying (hn : 1 ≤ n) (hb : Bounded n s) (ha : Accounted n s)
    {k : Nat}
    {ok : Bool} {pc pc' : WorkerPc ω} {σ : Shared ω} {e : Effect} (hk : s.workers[k]? = some pc)
    (h : WorkerAct ok s.shared pc σ pc' e) (hal : s.shared.alive) :
    0 < number WorkerPc.staying (s.workers.set k pc') := by
  have hne : s.workers ≠ [] := List.ne_nil_of_mem (List.mem_of_getElem? hk)
  have hpos := hb.staying hal hne
  have hset := number_set WorkerPc.staying pc' hk
  rcases h.staying with hle | hdead | hsurplus
  · omega
  · rw [hal] at hdead
    cases hdead
  · have hidle := ha.idle_le_staying
    have hmax := ha.maxIdle
    have h1 := toInt_le_one pc.staying
    have h0 := toInt_nonneg pc'.staying
    omega

private theorem Bounded.move (hn : 1 ≤ n) (hb : Bounded n s) (ha : Accounted n s)
    (hp' : Phased n t) (ha' : Accounted n t) (hm : Move n s t) : Bounded n t := by
  have hwait' := ha'.waiting_le_idle
  have hmax' := ha'.maxIdle
  cases hm with
  | @worker _ _ _ pc' _ _ _ hk hs hw =>
    refine ⟨?_, ?_, fun hal hne => ?_⟩
    · have hn := set_perform_number (P := WorkerPc.waiting) rfl rfl hk hw
      have hold := hb.waiting
      rcases hs.waiting with hle | hle
      · simp only
        omega
      · exact hwait'.trans (hle.trans_eq hmax')
    · have hmw := hs.setup.maxWorker
      have hold := hb.refs
      rcases hs.refs with hle | hle
      · simp only
        omega
      · exact hle
    · have hpos := hb.worker_staying hn ha hk hs (hs.setup.alive ▸ hal)
      exact hpos.trans_le (perform_staying hw).1
  | wake hw =>
    refine ⟨?_, hb.refs, fun hal hne => ?_⟩
    · rw [wakeWorker_number (P := WorkerPc.waiting) rfl hw]
      exact hb.waiting
    · rw [wakeWorker_number (P := WorkerPc.staying) rfl hw]
      obtain ⟨hk, -⟩ := wakeWorker_eq_some.mp hw
      exact hb.staying hal (List.ne_nil_of_mem (List.mem_of_getElem? hk))
  | submit => exact ⟨hb.waiting, hb.refs, hb.staying⟩
  | call hk hs hw =>
    obtain ⟨hset, -, -, hr, -⟩ := hs.setup
    refine ⟨?_, ?_, fun hal hne => ?_⟩
    · rw [perform_number (P := WorkerPc.waiting) rfl rfl hw]
      exact hb.waiting
    · simpa only [hr, hset.maxWorker] using hb.refs
    · by_cases hnil : s.workers = []
      · exact (perform_staying hw).2 hnil hne
      · exact (hb.staying (hset.alive ▸ hal) hnil).trans_le (perform_staying hw).1
  | @owner _ _ pc' σ e ws hs hw =>
    obtain ⟨-, hmw, -, -, -, hr⟩ := hs.counts ha.begun
    refine ⟨?_, ?_, fun hal hne => ?_⟩
    · rw [perform_number (P := WorkerPc.waiting) rfl rfl hw]
      exact hb.waiting
    · cases hsetup : pc'.setup with
      | some j =>
        have hle := (hp'.refs_le ha' hsetup).2
        have hmax := ha'.maxWorker
        simp only [multipleCpus] at hmax hle ⊢
        omega
      | none =>
        have he : e ≠ .spawn := fun he => OwnerAct.spawn (he ▸ hs) hsetup
        have hc : pc'.creating = false := by
          by_contra hc
          exact OwnerPc.setup_of_creating (by simpa using hc) hsetup
        have hnon := toInt_nonneg s.owner.creating
        have hold := hb.refs
        rw [if_neg he, hc, Bool.toInt_false] at hr
        simp only
        omega
    · by_cases hnil : s.workers = []
      · exact (perform_staying hw).2 hnil hne
      · exact (hb.staying (hs.alive ha.begun hal) hnil).trans_le (perform_staying hw).1

end Global
section Runs
variable {n : Nat} {old : WorkqueueStruct ω} {name : String} {s t : State ω}

def opened (n : Nat) (old : WorkqueueStruct ω) (name : String) : State ω where
  shared :=
    { assignFields n (initial old name).shared name with
      lockDestroyed := false, condDestroyed := false, workList := [] }
  workers := []
  calls := []
  owner := .loop 0

structure Opening (n : Nat) (old : WorkqueueStruct ω) (name : String) (s : State ω) : Prop where
  workers : s.workers = []
  calls : s.calls = []
  notBegun : s.owner.begun = false
  owner : (s.owner = .enter name ∧ s.shared = (initial old name).shared) ∨
    (s.owner = .mutexInit ∧ s.shared = assignFields n (initial old name).shared name) ∨
    (s.owner = .condInit ∧ s.shared =
      { assignFields n (initial old name).shared name with lockDestroyed := false }) ∨
    (s.owner = .listInit ∧ s.shared =
      { assignFields n (initial old name).shared name with
        lockDestroyed := false, condDestroyed := false }) ∨
    s.owner = .lockDestroy none ∨ s.owner = .failed none

variable [DecidableEq ω]

theorem Opening.move (h : Opening n old name s) (hm : Move n s t) :
    Opening n old name t ∨ t = opened n old name := by
  cases hm with
  | worker hk => simp [h.workers] at hk
  | wake hk => simp [wakeWorker_eq_some, h.workers] at hk
  | submit ha => rcases h.owner with h | h | h | h | h | h <;> simp [h, OwnerPc.accepting] at ha
  | call hk => simp [h.calls] at hk
  | owner hs hw =>
    rcases s with ⟨σ, ws, cs, o⟩
    obtain rfl : ws = [] := h.workers
    obtain rfl : cs = [] := h.calls
    rcases h.owner with ⟨ho, hσ⟩ | ⟨ho, hσ⟩ | ⟨ho, hσ⟩ | ⟨ho, hσ⟩ | ho | ho
    all_goals
      obtain rfl := ho
      try obtain rfl := hσ
      cases hs <;> cases hw
    all_goals first
      | exact .inr rfl
      | exact .inl ⟨rfl, rfl, rfl, by simp [assignFields, initial]⟩

theorem reachable_opened (h : Reachable (step n) (initial old name) s) :
    Opening n old name s ∨ Reachable (step n) (opened n old name) s := by
  refine h.invariant (P := fun s => Opening n old name s ∨ Reachable (step n) (opened n old name) s)
    (.inl ⟨rfl, rfl, rfl, .inl ⟨rfl, rfl⟩⟩) fun ha he => ?_
  rcases ha with ho | hr
  · rcases ho.move (step_move he) with ho | rfl
    · exact .inl ho
    · exact .inr (.refl _)
  · exact .inr (hr.tail he)

/-- What holds from the first worker's creation on. -/
structure Sound (n : Nat) (s : State ω) : Prop where
  accounted : Accounted n s
  phased : Phased n s
  bounded : Bounded n s

omit [DecidableEq ω] in
theorem opened_sound (n : Nat) (old : WorkqueueStruct ω) (name : String) :
    Sound n (opened n old name) := by
  have hidle : (0 : Int) ≤ n * 3 := by omega
  refine ⟨⟨rfl, rfl, rfl, rfl, rfl, rfl, rfl⟩, ⟨rfl, ?_, ?_, ?_⟩, ⟨?_, ?_, ?_⟩⟩
  all_goals
    simp [opened, OwnerPc.initialised, OwnerPc.accepting, assignFields, multipleCpus, hidle]

theorem Sound.move (hn : 1 ≤ n) (h : Sound n s) (hm : Move n s t) : Sound n t := by
  have ha := h.accounted.move hm
  have hp := h.phased.move h.accounted hm
  exact ⟨ha, hp, h.bounded.move hn h.accounted hp ha hm⟩

theorem reachable_sound (hn : 1 ≤ n) (h : Reachable (step n) (opened n old name) s) : Sound n s :=
  h.invariant (opened_sound n old name) fun ha he => ha.move hn (step_move he)

omit [DecidableEq ω] in
theorem OwnerPc.begun_of_initialised {o : OwnerPc} (h : o.initialised) : o.begun := by
  cases o <;> simp_all [OwnerPc.initialised, OwnerPc.accepting]

theorem reachable_initialised (h : Reachable (step n) (initial old name) s)
    (hi : s.owner.initialised) : Reachable (step n) (opened n old name) s := by
  refine (reachable_opened h).resolve_left fun ho => ?_
  have hb := OwnerPc.begun_of_initialised hi
  rw [ho.notBegun] at hb
  cases hb

@[simp] def WorkerPc.running : WorkerPc ω → Bool
  | .created | .exited => false
  | _ => true

@[simp] def WorkerPc.starting : WorkerPc ω → Bool
  | .created => true
  | _ => false

omit [DecidableEq ω] in
/-- As long as the queue is alive somebody stays. -/
theorem Sound.exists_staying (h : Sound n s) (hn : 1 ≤ n) (hi : s.owner.initialised)
    (hal : s.shared.alive) : ∃ pc ∈ s.workers, pc.staying := by
  have hlen := h.phased.populated hi
  refine number_pos.mp (h.bounded.staying hal fun hnil => ?_)
  rw [hnil, List.length_nil] at hlen
  omega

omit [DecidableEq ω] in
theorem OwnerPc.not_creating {o : OwnerPc} (h : o.initialised) : o.creating = false := by
  cases o <;> simp_all [OwnerPc.initialised, OwnerPc.accepting]

omit [DecidableEq ω] in
theorem WorkerPc.refs_nonneg (pc : WorkerPc ω) : 0 ≤ pc.refs := by
  cases pc <;> simp

/-- The counters are exact, and bounded, whenever the lock is free. -/
theorem worker_accounting (hn : 1 ≤ n) (h : Reachable (step n) (initial old name) s)
    (hi : s.owner.initialised) (hl : s.shared.locked = false) :
    s.shared.nrIdleWorker = s.workers.countP WorkerPc.waiting ∧
    s.shared.nrWorker = s.workers.countP WorkerPc.running ∧
    s.shared.refCount = s.shared.nrWorker + s.workers.countP WorkerPc.starting ∧
    0 ≤ s.shared.nrIdleWorker ∧ s.shared.nrIdleWorker ≤ s.shared.nrMaxIdleWorker ∧
    s.shared.nrIdleWorker ≤ s.shared.nrWorker ∧ s.shared.nrWorker ≤ s.shared.refCount ∧
    s.shared.refCount ≤ s.shared.nrMaxWorker ∧ (s.shared.alive → 1 ≤ s.shared.refCount) := by
  have hs := reachable_sound hn (reachable_initialised h hi)
  have ha := hs.accounted
  have hb := hs.bounded
  have hout : ∀ pc ∈ s.workers, pc.critical = false := fun pc => ha.worker_outside hl
  have hidle : number WorkerPc.idle s.workers = number WorkerPc.waiting s.workers :=
    number_congr fun pc hpc => by have := hout pc hpc; cases pc <;> simp_all
  have hstarted : number WorkerPc.started s.workers = number WorkerPc.running s.workers :=
    number_congr fun pc hpc => by have := hout pc hpc; cases pc <;> simp_all
  have hrefs : total WorkerPc.refs s.workers =
      number WorkerPc.running s.workers + number WorkerPc.starting s.workers := by
    rw [number, number, ← total_add]
    exact total_congr fun pc hpc => by have := hout pc hpc; cases pc <;> simp_all
  have hle : number WorkerPc.waiting s.workers ≤ number WorkerPc.running s.workers :=
    number_le_number fun pc _ hpc => by cases pc <;> simp_all
  have hcr := OwnerPc.not_creating hi
  have h1 := ha.idle
  have h2 := ha.started
  have h3 := ha.refs
  have h4 := number_nonneg WorkerPc.waiting s.workers
  have h5 := number_nonneg WorkerPc.starting s.workers
  have h6 := hb.waiting
  have h7 := ha.maxIdle
  rw [hcr, Bool.toInt_false] at h3
  simp only [← number_eq_countP]
  refine ⟨by omega, by omega, by omega, by omega, by omega, by omega, by omega, hb.refs, fun hal => ?_⟩
  obtain ⟨pc, hpc, hst⟩ := hs.exists_staying hn hi hal
  have hone : pc.refs ≤ total WorkerPc.refs s.workers := le_total WorkerPc.refs_nonneg hpc
  have hpos : 1 ≤ pc.refs := by cases pc <;> simp_all
  omega

def unset : WorkqueueStruct Nat := ⟨false, 0, 0, 0, 0, 0, "", []⟩

theorem one_worker_waits : ∃ s : State Nat, Reachable (step 1) (initial unset "wq") s ∧
    s.workers = [.blocked] ∧ s.shared.nrIdleWorker = s.workers.countP WorkerPc.waiting := by
  have hr := Reachable.get (step 1) (initial unset "wq")
    (List.replicate 7 (.owner true none) ++ List.replicate 7 (.worker 0 true)) rfl
  exact ⟨_, hr, rfl, (worker_accounting le_rfl hr rfl rfl).1⟩

end Runs
end CommonProject.Workqueue
