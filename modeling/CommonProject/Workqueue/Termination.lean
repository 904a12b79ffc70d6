import Mathlib.Data.Prod.Lex
import CommonProject.Workqueue.Quiescence

/-! `destroy_workqueue` returns in every weakly fair execution. -/
namespace CommonProject.Workqueue
open Foundations
variable {ω : Type}

inductive Thread
  | worker (k : Nat)
  | call (k : Nat)
  | owner
  deriving DecidableEq, Repr

/-- Whose step an event is; wake-ups and submissions come from outside. -/
@[simp] def Event.thread : Event ω → Option Thread
  | .worker k _ => some (.worker k)
  | .call k _ => some (.call k)
  | .owner _ _ => some .owner
  | _ => none

@[simp] def OwnerPc.destroying : OwnerPc → Bool
  | .destroyLock | .destroyClear => true
  | o => o.closed

/-- How far `destroy_workqueue` is from its return, each of its loops being one stage. -/
@[simp] def OwnerPc.stage : OwnerPc → Nat
  | .destroyLock => 10
  | .destroyClear => 9
  | .destroyUnlock => 8
  | .drainList | .drainCount | .drainSignal => 7
  | .exitTest _ | .exitSignal _ => 6
  | .exitLock _ => 5
  | .exitUnlock _ => 4
  | .warnIdle => 3
  | .condDestroy => 2
  | .mutexDestroy => 1
  | .destroyed => 0
  | _ => 11

/-- The steps of a loop until it signals, if there are sleepers, or else until it is left. -/
@[simp] def OwnerPc.lap (sleepers : Bool) : OwnerPc → Nat
  | .drainSignal => if sleepers then 0 else 2
  | .drainList => if sleepers then 2 else 1
  | .drainCount => if sleepers then 1 else 0
  | .exitSignal _ => if sleepers then 0 else 1
  | .exitTest _ => if sleepers then 1 else 0
  | _ => 0

def State.readyWorker (s : State ω) : Option Nat :=
  s.workers.findIdx? (WorkerPc.ready s.shared.locked)

def State.readyCall (s : State ω) : Option Nat := s.calls.findIdx? (CallPc.ready s.shared.locked)

/-- A thread whose step brings the queue closer to its end. -/
def State.helper (s : State ω) : Thread :=
  match s.readyWorker, s.readyCall with
  | some k, _ => .worker k
  | none, some k => .call k
  | none, none => .owner

def State.sleepers (s : State ω) : Bool := s.workers.any fun pc => pc matches .blocked

/-- The stage of the owner, then the work in progress, then the owner's place in its loop,
which matters when the others have nothing to do. -/
def State.rank (s : State ω) : ℕ ×ₗ ℕ ×ₗ ℕ :=
  toLex (s.owner.stage, toLex ((s.effort s.owner.closed).toNat,
    if s.helper = .owner then s.owner.lap s.sleepers else 0))

/-- No more submissions, and no wake-up without a signal as long as the queue is alive. -/
def Settled (s : State ω) (e : Event ω) : Prop :=
  e.submits = false ∧ ∀ k, e = .wake k → s.shared.alive = false

section Local
variable {n : Nat} {ok : Bool} {σ σ' : Shared ω} {e : Effect}

/-- A step of `destroy_workqueue` goes to the next stage, or around a loop. -/
private theorem OwnerAct.stage {o o' : OwnerPc} (h : OwnerAct n ok σ o σ' o' e)
    (hd : o.destroying) : o'.destroying ∧ e ≠ .spawn ∧ (o'.stage < o.stage ∨
      o'.stage = o.stage ∧ o.closed ∧ o'.closed ∧ o.critical = false ∧ σ'.locked = σ.locked ∧
      (0 < σ.nrWorker → 0 < σ.refCount → e = .signal ∨ o'.lap true < o.lap true) ∧
      (σ.workList = [] → σ.nrWorker = 0 → σ.refCount = 0 → o'.lap false < o.lap false)) := by
  cases h
  all_goals simp_all [Shared.unlock, Shared.useCond, Shared.warn]

private theorem ownerStep_of_destroying (n : Nat) (ok : Bool) {o : OwnerPc} (hd : o.destroying)
    (hne : o ≠ .destroyed) (hl : o.critical ∨ σ.locked = false) :
    ∃ σ' o' e, ownerStep n ok σ o = some (σ', o', e) := by
  fun_cases ownerStep n ok σ o <;> simp_all [Shared.lock]

/-- A signal of the closed queue is lost when nobody sleeps, and else leaves less to do. -/
private theorem perform_signals [DecidableEq ω] {target : Option Nat} {ws ws' : List (WorkerPc ω)}
    (h : perform target ws e = some ws') (he : e ≠ .spawn) :
    ws' = ws ∧ (.blocked ∈ ws → e = .none) ∨
      total (WorkerPc.rank true) ws' + 1 = total (WorkerPc.rank true) ws := by
  cases e with
  | none => exact .inl ⟨(Option.some.inj h).symm, fun _ => rfl⟩
  | spawn => exact absurd rfl he
  | signal =>
    cases target with
    | some k =>
      right
      rw [wakeWorker_rank true h, if_pos rfl]
      omega
    | none =>
      simp only [perform] at h
      split at h
      · cases h
      · exact .inl ⟨(Option.some.inj h).symm, fun hb => absurd hb ‹_›⟩

end Local

section Global
variable {n : Nat} {s t : State ω}

private theorem State.sleepers_eq_true : s.sleepers = true ↔ .blocked ∈ s.workers := by
  simp only [State.sleepers, List.any_eq_true]
  constructor
  · rintro ⟨pc, hpc, hb⟩
    cases pc <;> simp_all
  · exact fun hb => ⟨_, hb, rfl⟩

private theorem State.rank_lt_of_stage (h : t.owner.stage < s.owner.stage) : t.rank < s.rank :=
  Prod.Lex.toLex_lt_toLex.mpr (.inl h)

private theorem State.rank_lt_of_effort (hs : t.owner.stage = s.owner.stage)
    (h : t.effort t.owner.closed < s.effort s.owner.closed) : t.rank < s.rank := by
  have hnon := t.effort_nonneg t.owner.closed
  exact Prod.Lex.toLex_lt_toLex.mpr
    (.inr ⟨hs, Prod.Lex.toLex_lt_toLex.mpr (.inl (by omega))⟩)

/-- When the owner is the helper nobody else can take a step. -/
private theorem State.unready_of_helper (h : s.helper = .owner) :
    (∀ pc ∈ s.workers, pc.ready s.shared.locked = false) ∧
    ∀ pc ∈ s.calls, pc.ready s.shared.locked = false := by
  unfold State.helper at h
  split at h
  · cases h
  · cases h
  · exact ⟨List.findIdx?_eq_none_iff.mp ‹_›, List.findIdx?_eq_none_iff.mp ‹_›⟩

private theorem State.helper_congr (hw : t.workers = s.workers) (hc : t.calls = s.calls)
    (hl : t.shared.locked = s.shared.locked) : t.helper = s.helper := by
  unfold State.helper State.readyWorker State.readyCall
  rw [hw, hc, hl]

private theorem Accounted.sleeper_counts (ha : Accounted n s) (hb : .blocked ∈ s.workers) :
    0 < s.shared.nrWorker ∧ 0 < s.shared.refCount := by
  have hstarted := number_pos.mpr ⟨_, hb, (rfl : WorkerPc.blocked.started = true)⟩
  have hrefs := le_total WorkerPc.refs_nonneg hb
  have hcr := toInt_nonneg s.owner.creating
  rw [← ha.started] at hstarted
  have hone : (WorkerPc.blocked : WorkerPc ω).refs = 1 := rfl
  have href := ha.refs
  exact ⟨hstarted, by omega⟩

private theorem Accounted.exited_counts (ha : Accounted n s) (hc : s.owner.creating = false)
    (hall : ∀ pc ∈ s.workers, pc = .exited) :
    s.shared.nrWorker = 0 ∧ s.shared.refCount = 0 := by
  have hzero : total WorkerPc.refs s.workers = total (fun _ => (0 : Int) * 0) s.workers :=
    total_congr fun pc hpc => by rw [hall pc hpc]; rfl
  rw [total_mul, zero_mul] at hzero
  rw [ha.started, ha.refs, hzero, hc]
  exact ⟨number_exited rfl hall, rfl⟩

variable [DecidableEq ω]

private theorem destroying_move (h : s.owner.destroying) (hm : Move n s t) :
    t.owner.destroying := by
  cases hm with
  | owner hs => exact (hs.stage h).1
  | _ => exact h

/-- A step of the owner around one of its loops. -/
private theorem loop_rank (hn : 1 ≤ n) {old : WorkqueueStruct ω} {name : String}
    (h : Reachable (step n) (opened n old name) s) {ok : Bool} {target : Option Nat}
    {σ : Shared ω} {o : OwnerPc} {e : Effect} {ws : List (WorkerPc ω)}
    (hs : OwnerAct n ok s.shared s.owner σ o e) (hd : s.owner.destroying)
    (hw : perform target s.workers e = some ws) (hnot : ¬ o.stage < s.owner.stage) :
    State.rank { s with shared := σ, workers := ws, owner := o } < s.rank ∨
    State.rank { s with shared := σ, workers := ws, owner := o } = s.rank ∧
      State.helper { s with shared := σ, workers := ws, owner := o } = s.helper ∧
      s.helper ≠ .owner := by
  have ha := (reachable_sound hn h).accounted
  obtain ⟨hlist, -⟩ := hs.works ha.begun
  obtain ⟨-, hsp, hstage⟩ := hs.stage hd
  obtain ⟨hstage, hcl, hcl', hcrit, hlock, hsleep, hgone⟩ := hstage.resolve_left hnot
  rcases perform_signals hw hsp with ⟨rfl, hnone⟩ | hless
  swap
  · left
    refine State.rank_lt_of_effort hstage ?_
    simp only [State.effort, hcl, hcl', hlist]
    omega
  have hhelper : State.helper { s with shared := σ, workers := s.workers, owner := o } =
      s.helper := State.helper_congr rfl rfl hlock
  have heff : State.effort o.closed { s with shared := σ, workers := s.workers, owner := o } =
      s.effort s.owner.closed := by
    simp only [State.effort, hcl, hcl', hlist]
  by_cases hown : s.helper = .owner
  swap
  · refine .inr ⟨?_, hhelper, hown⟩
    simp only [State.rank, hhelper, if_neg hown, heff, hstage]
  left
  obtain ⟨hunw, hunc⟩ := State.unready_of_helper hown
  have hrest := rested_of_unready hn h hcrit hunw hunc
  have hlap : o.lap s.sleepers < s.owner.lap s.sleepers := by
    cases hb : s.sleepers with
    | true =>
      have hmem := State.sleepers_eq_true.mp hb
      obtain ⟨hnr, hrc⟩ := ha.sleeper_counts hmem
      refine (hsleep hnr hrc).resolve_left fun hsig => ?_
      rw [hnone hmem] at hsig
      cases hsig
    | false =>
      have hall : ∀ pc ∈ s.workers, pc = .exited := fun pc hpc =>
        (hrest.workers pc hpc).resolve_left fun hpb => by
          rw [State.sleepers_eq_true.mpr (hpb ▸ hpc)] at hb
          cases hb
      have hcr : s.owner.creating = false := by cases ho : s.owner <;> simp_all
      obtain ⟨hnr, hrc⟩ := ha.exited_counts hcr hall
      exact hgone hrest.workList hnr hrc
  refine Prod.Lex.toLex_lt_toLex.mpr (.inr ⟨hstage, Prod.Lex.toLex_lt_toLex.mpr (.inr ⟨?_, ?_⟩)⟩)
  · simp only [heff]
  · simp only [hhelper, if_pos hown]
    exact hlap

end Global

section Runs
variable [DecidableEq ω] {n : Nat} {old : WorkqueueStruct ω} {name : String}

def Destroying (n : Nat) (old : WorkqueueStruct ω) (name : String) (s : State ω) : Prop :=
  Reachable (step n) (opened n old name) s ∧ s.owner.destroying

private theorem destroy_helped (hn : 1 ≤ n) (old : WorkqueueStruct ω) (name : String) :
    Helped (step n) Event.thread (Destroying n old name) (fun s => s.owner = .destroyed)
      Settled (fun _ => State.rank) fun τ s => s.owner ≠ .destroyed ∧ s.helper = τ := by
  rintro s e t τ ⟨hr, hd⟩ ⟨hne, rfl⟩ hset he
  have hs := reachable_sound hn hr
  by_cases hgoal : t.owner = .destroyed
  · exact .inl hgoal
  right
  suffices hrank : t.rank < s.rank ∨
      t.rank = s.rank ∧ t.helper = s.helper ∧ e.thread ≠ some s.helper from
    hrank.imp (fun hl => ⟨_, ⟨hgoal, rfl⟩, hl⟩) fun hw => ⟨⟨hgoal, hw.2.1⟩, hw.1, hw.2.2⟩
  cases e with
  | worker k ok =>
    left
    have heff : t.effort s.owner.closed + 1 ≤ s.effort s.owner.closed :=
      worker_effort he fun hc => by rw [hs.phased.alive, hc]; rfl
    have ho : t.owner = s.owner := turn_owner rfl he
    exact State.rank_lt_of_effort (by rw [ho]) (by rw [ho]; omega)
  | wake k =>
    left
    have hcl : s.owner.closed = true := by
      have hal := hs.phased.alive
      rw [hset.2 k rfl] at hal
      simpa using hal.symm
    have heff : t.effort s.owner.closed = s.effort s.owner.closed - 1 := by
      rw [wake_effort he, hcl, if_pos rfl, Int.sub_eq_add_neg]
    obtain ⟨ws, -, rfl⟩ := step_wake_inv he
    exact State.rank_lt_of_effort rfl (by simp only at heff ⊢; omega)
  | submit work => cases hset.1
  | call k target =>
    left
    have heff : t.effort s.owner.closed + 1 ≤ s.effort s.owner.closed := call_effort he
    have ho : t.owner = s.owner := turn_owner rfl he
    exact State.rank_lt_of_effort (by rw [ho]) (by rw [ho]; omega)
  | owner ok target =>
    obtain ⟨o, σ, e, ws, hstep, hw, rfl⟩ := step_owner_inv he
    by_cases hlt : o.stage < s.owner.stage
    · exact .inl (State.rank_lt_of_stage hlt)
    · rcases loop_rank hn hr hstep hd hw hlt with hl | ⟨hrank, hhelper, hown⟩
      · exact .inl hl
      · exact .inr ⟨hrank, hhelper, fun h => hown (Option.some.inj h).symm⟩

private theorem helper_enabled (hn : 1 ≤ n) {s : State ω} (h : Destroying n old name s)
    (hne : s.owner ≠ .destroyed) : Enabled (step n) Event.thread s.helper s := by
  cases hh : s.helper with
  | worker k =>
    unfold State.helper at hh
    split at hh
    · obtain rfl := Thread.worker.inj hh
      obtain ⟨hlt, hr, -⟩ := List.findIdx?_eq_some_iff_getElem.mp ‹_›
      exact ⟨.worker _ true, rfl, worker_enabled (List.getElem?_eq_getElem hlt) hr true⟩
    · cases hh
    · cases hh
  | call k =>
    unfold State.helper at hh
    split at hh
    · cases hh
    · obtain rfl := Thread.call.inj hh
      obtain ⟨hlt, hr, -⟩ := List.findIdx?_eq_some_iff_getElem.mp ‹_›
      obtain ⟨target, hs⟩ := call_enabled (List.getElem?_eq_getElem hlt) hr
      exact ⟨.call _ target, rfl, hs⟩
    · cases hh
  | owner =>
    obtain ⟨hw, hc⟩ := State.unready_of_helper hh
    have ha := (reachable_sound hn h.1).accounted
    have hl : s.owner.critical ∨ s.shared.locked = false := by
      by_cases hcr : s.owner.critical
      · exact .inl hcr
      · exact .inr (ha.unlocked ((Bool.not_eq_true _).mp hcr) hw hc)
    obtain ⟨σ, o, e, hs⟩ := ownerStep_of_destroying n true h.2 hne hl
    obtain ⟨target, hp⟩ := perform_possible s.workers e
    obtain ⟨ws, hws⟩ := Option.isSome_iff_exists.mp hp
    exact ⟨.owner true target, rfl, by simp [step, hs, hws]⟩

private theorem Destroying.reachable {s t : State ω} (h : Destroying n old name s)
    (hr : Reachable (step n) s t) : Destroying n old name t :=
  ⟨h.1.trans hr, hr.invariant (P := fun s => s.owner.destroying) h.2 fun hd he =>
    destroying_move hd (step_move he)⟩

/-- Once it has been called, `destroy_workqueue` returns in every weakly fair execution in
which submissions, and wake-ups without a signal in a queue still alive, come to an end; and
then every worker has exited. Fairness has every work function return. -/
theorem destroy_terminates (hn : 1 ≤ n) {x : Execution (step n)}
    (hf : WeaklyFair Event.thread x) {i : Nat}
    (h : Reachable (step n) (initial old name) (x.state i)) (hd : (x.state i).owner.destroying)
    (hset : ∃ m, ∀ j e, m ≤ j → x.event j = some e → Settled (x.state j) e) :
    ∃ j, i ≤ j ∧ (x.state j).owner = .destroyed ∧ ∀ pc ∈ (x.state j).workers, pc = .exited := by
  obtain ⟨m, hm⟩ := hset
  have hin : (x.state i).owner.initialised := by
    cases ho : (x.state i).owner <;> simp_all [OwnerPc.initialised, OwnerPc.accepting]
  have hvalid : ∀ j, i ≤ j → Destroying n old name (x.state j) := by
    intro j hj
    obtain ⟨k, rfl⟩ := Nat.exists_eq_add_of_le hj
    exact Destroying.reachable ⟨reachable_initialised h hin, hd⟩ (x.reachable i k)
  suffices hgoal : ∃ j, i ≤ j ∧ (x.state j).owner = .destroyed by
    obtain ⟨j, hj, hj'⟩ := hgoal
    exact ⟨j, hj, hj', (reachable_outlived (hvalid j hj).1).2.joined (by rw [hj']; rfl)⟩
  by_cases hdone : (x.state (max i m)).owner = .destroyed
  · exact ⟨_, le_max_left i m, hdone⟩
  have hturn : ∀ τ k, max i m ≤ k →
      (∀ j, k ≤ j → (x.state j).owner ≠ .destroyed ∧ (x.state j).helper = τ) →
      ∃ j, k ≤ j ∧ ∃ e, x.event j = some e ∧ e.thread = some τ := by
    intro τ k hk hhelps
    refine hf.turn fun j hj => ?_
    obtain ⟨hne, rfl⟩ := hhelps j hj
    exact helper_enabled hn (hvalid j (le_of_max_le_left (hk.trans hj))) hne
  obtain ⟨j, hj, hgoal⟩ := (destroy_helped hn old name).reaches
    (fun j hj => hvalid j (le_of_max_le_left hj)) (fun j e hj => hm j e (le_of_max_le_right hj))
    hturn ⟨hdone, rfl⟩
  exact ⟨j, le_of_max_le_left hj, hgoal⟩

def lifeOfOne : List (Event Nat) :=
  List.flatten [.replicate 7 (.owner true none), .replicate 7 (.worker 0 true),
    .submit 5 :: .replicate 5 (.call 0 (some 0)), .replicate 11 (.worker 0 true),
    .replicate 7 (.owner true (some 0)), .replicate 6 (.worker 0 true),
    .replicate 8 (.owner true none)]

theorem lifeOfOne_rests (τ : Thread) :
    ¬ Enabled (step 1) Event.thread τ (outcome (step 1) (initial unset "wq") lifeOfOne) := by
  have hw : (outcome (step 1) (initial unset "wq") lifeOfOne).workers = [.exited] := by
    decide +kernel
  have hc : (outcome (step 1) (initial unset "wq") lifeOfOne).calls = [.returned 5 .ok] := by
    decide +kernel
  have ho : (outcome (step 1) (initial unset "wq") lifeOfOne).owner = .destroyed := by
    decide +kernel
  rintro ⟨e, ht, hs⟩
  cases e with
  | worker k ok => cases k <;> simp [step, hw, workerStep] at hs
  | call k target => cases k <;> simp [step, hc, callStep] at hs
  | owner ok target => simp [step, ho, ownerStep] at hs
  | _ => cases ht

theorem one_queue_destroyed : ∃ x : Execution (step 1), x.state 0 = initial unset "wq" ∧
    WeaklyFair Event.thread x ∧ ∃ j, 33 ≤ j ∧ (x.state j).owner = .destroyed ∧
      ∀ pc ∈ (x.state j).workers, pc = .exited := by
  have hrun : (run (step 1) (initial unset "wq") lifeOfOne).isSome := by decide +kernel
  have hf : WeaklyFair Event.thread (Execution.ofRun _ _ hrun) :=
    (Execution.ofRun_fair hrun lifeOfOne_rests).weakly
  have hreach : Reachable (step 1) (initial unset "wq")
      (outcome (step 1) (initial unset "wq") (lifeOfOne.take 33)) :=
    ⟨_, run_outcome (by decide +kernel)⟩
  have hd : (outcome (step 1) (initial unset "wq") (lifeOfOne.take 33)).owner.destroying := by
    decide +kernel
  have hown : ∀ e ∈ lifeOfOne.drop 33, e.thread.isSome := by decide +kernel
  refine ⟨_, rfl, hf, destroy_terminates le_rfl hf hreach hd ⟨33, fun j e hj he => ?_⟩⟩
  obtain ⟨k, rfl⟩ := Nat.exists_eq_add_of_le hj
  have hmem : e ∈ lifeOfOne.drop 33 := List.mem_of_getElem? (List.getElem?_drop.trans he)
  have hthread := hown e hmem
  cases e <;> simp_all [Settled]

end Runs
end CommonProject.Workqueue
