import Mathlib.Logic.Function.Basic
import CommonProject.Foundations.Population

/-! The workqueue: its threads take turns, one shared write a step. -/
namespace CommonProject.Workqueue
open Foundations

def workqueueNameLen : Nat := 40
def multipleCpus : Int := 3

/-- The fields of `struct workqueue`; a work is on the list by its entry. -/
structure WorkqueueStruct (ω : Type) where
  alive : Bool
  nrWorker : Int
  refCount : Int
  nrMaxWorker : Int
  nrIdleWorker : Int
  nrMaxIdleWorker : Int
  name : String
  workList : List ω

/-- What the threads share. `wq work` tells whether `work->wq` is set. The last four fields
record history and are never read: the works that `queue_work` put on the list, that left it,
whose function was called, and whose `wq` was cleared after that. -/
structure Shared (ω : Type) extends WorkqueueStruct ω where
  locked : Bool
  lockDestroyed : Bool
  condDestroyed : Bool
  condMisused : Bool
  wq : ω → Bool
  warnings : List String
  accepted : List ω
  taken : List ω
  called : List ω
  finished : List ω

inductive Effect
  | none
  | spawn
  | signal
  deriving DecidableEq, Repr

/-- A worker's next action in `worker_thread` and `process_one_work`. -/
inductive WorkerPc (ω : Type)
  | created
  | startIdle
  | startCount
  | wakeUp
  | fetch
  | unlockRun (work : ω)
  | runFunc (work : ω)
  | clearWq (work : ω)
  | relock
  | grow
  | spawn
  | unspawn
  | checkAlive
  | surplusTest
  | blocked
  | woken
  | leaveCount
  | leaveRef
  | leaveUnlock
  | exited
  deriving DecidableEq, Repr

inductive QueueResult
  | ok
  | already
  | dead
  deriving DecidableEq, Repr

def QueueResult.code : QueueResult → Int
  | .ok => 0
  | .already => -1
  | .dead => -1

@[simp] theorem QueueResult.code_eq_zero {r : QueueResult} : r.code = 0 ↔ r = .ok := by
  cases r <;> simp [code]

def QueueResult.warning : QueueResult → List String
  | .ok => []
  | .already => ["The work is already on workqueue"]
  | .dead => ["Dead workqueue, cannot insert new work"]

/-- A call's next action in `queue_work`. -/
inductive CallPc (ω : Type)
  | lock (work : ω)
  | insert (work : ω)
  | storeWq (work : ω)
  | notify (work : ω)
  | unlock (work : ω) (result : QueueResult)
  | returned (work : ω) (result : QueueResult)
  deriving DecidableEq, Repr

/-- The two callers of `wait_worker_exit`; the failed initialisation knows how many
workers it had created. -/
inductive Closing
  | cleanup (i : Nat)
  | destroy
  deriving DecidableEq, Repr

@[simp] def Closing.created : Closing → Option Nat
  | .cleanup i => some i
  | .destroy => none

/-- The next action of the thread in `init_workqueue` and later in `destroy_workqueue`. -/
inductive OwnerPc
  | enter (name : String)
  | mutexInit
  | condInit
  | listInit
  | loop (i : Nat)
  | create (i : Nat)
  | uncount (i : Nat)
  | cleanTest (i : Nat)
  | cleanSignal (i : Nat)
  | cleanDestroy (i : Nat)
  | exitTest (c : Closing)
  | exitSignal (c : Closing)
  | exitLock (c : Closing)
  | exitUnlock (c : Closing)
  | lockDestroy (i : Option Nat)
  | failed (i : Option Nat)
  | ready
  | destroyLock
  | destroyClear
  | destroyUnlock
  | drainList
  | drainCount
  | drainSignal
  | warnIdle
  | condDestroy
  | mutexDestroy
  | destroyed
  deriving DecidableEq, Repr

variable {ω : Type}

def Shared.lock (σ : Shared ω) : Option (Shared ω) :=
  if σ.locked then none else some { σ with locked := true }

def Shared.unlock (σ : Shared ω) : Shared ω := { σ with locked := false }

def Shared.warn (σ : Shared ω) (text : String) : Shared ω :=
  { σ with warnings := σ.warnings ++ [text] }

/-- Signalling a condition or waiting on it, which is wrong once it is destroyed. -/
def Shared.useCond (σ : Shared ω) : Shared ω :=
  { σ with condMisused := σ.condMisused || σ.condDestroyed }

def Shared.needsWorker (σ : Shared ω) : Bool :=
  σ.alive && !σ.workList.isEmpty && σ.nrIdleWorker == 0 && decide (σ.refCount < σ.nrMaxWorker)

/-- One step of a worker; `ok` is the outcome of `pthread_create`. A call of a work's function is
one step that can always be taken: each function is taken to return, whatever other works do. -/
def workerStep [DecidableEq ω] (ok : Bool) (σ : Shared ω) :
    WorkerPc ω → Option (Shared ω × WorkerPc ω × Effect)
  | .created => σ.lock.map fun σ' => (σ', .startIdle, .none)
  | .startIdle => some ({ σ with nrIdleWorker := σ.nrIdleWorker + 1 }, .startCount, .none)
  | .startCount => some ({ σ with nrWorker := σ.nrWorker + 1 }, .wakeUp, .none)
  | .wakeUp => some ({ σ with nrIdleWorker := σ.nrIdleWorker - 1 }, .fetch, .none)
  | .fetch =>
    match σ.workList with
    | [] => some (σ, .checkAlive, .none)
    | work :: rest =>
      some ({ σ with workList := rest, taken := σ.taken ++ [work] }, .unlockRun work, .none)
  | .unlockRun work => some (σ.unlock, .runFunc work, .none)
  | .runFunc work => some ({ σ with called := σ.called ++ [work] }, .clearWq work, .none)
  | .clearWq work =>
    some ({ σ with wq := Function.update σ.wq work false, finished := σ.finished ++ [work] },
      .relock, .none)
  | .relock => σ.lock.map fun σ' => (σ', .grow, .none)
  | .grow =>
    if σ.needsWorker then some ({ σ with refCount := σ.refCount + 1 }, .spawn, .none)
    else some (σ, .fetch, .none)
  | .spawn => if ok then some (σ, .fetch, .spawn) else some (σ, .unspawn, .none)
  | .unspawn =>
    some ({ σ with refCount := σ.refCount - 1 }.warn
      "Cannot create additional worker for workqueue", .fetch, .none)
  | .checkAlive =>
    if σ.alive then some ({ σ with nrIdleWorker := σ.nrIdleWorker + 1 }, .surplusTest, .none)
    else some ({ σ with nrWorker := σ.nrWorker - 1 }, .leaveRef, .none)
  | .surplusTest =>
    if σ.nrMaxIdleWorker < σ.nrIdleWorker then
      some ({ σ with nrIdleWorker := σ.nrIdleWorker - 1 }, .leaveCount, .none)
    else some (σ.useCond.unlock, .blocked, .none)
  | .blocked => none
  | .woken => σ.lock.map fun σ' => (σ', .wakeUp, .none)
  | .leaveCount => some ({ σ with nrWorker := σ.nrWorker - 1 }, .leaveRef, .none)
  | .leaveRef => some ({ σ with refCount := σ.refCount - 1 }, .leaveUnlock, .none)
  | .leaveUnlock => some (σ.unlock, .exited, .none)
  | .exited => none

def callStep [DecidableEq ω] (σ : Shared ω) : CallPc ω → Option (Shared ω × CallPc ω × Effect)
  | .lock work => σ.lock.map fun σ' => (σ', .insert work, .none)
  | .insert work =>
    if σ.wq work then some (σ, .unlock work .already, .none)
    else if σ.alive then
      some ({ σ with workList := σ.workList ++ [work], accepted := σ.accepted ++ [work] },
        .storeWq work, .none)
    else some (σ, .unlock work .dead, .none)
  | .storeWq work => some ({ σ with wq := Function.update σ.wq work true }, .notify work, .none)
  | .notify work =>
    if σ.nrIdleWorker = 0 then some (σ, .unlock work .ok, .none)
    else some (σ.useCond, .unlock work .ok, .signal)
  | .unlock work r =>
    some ({ σ.unlock with warnings := σ.warnings ++ r.warning }, .returned work r, .none)
  | .returned _ _ => none

/-- The assignments at the top of `init_workqueue` on `n` processors. -/
def assignFields (n : Nat) (σ : Shared ω) (name : String) : Shared ω :=
  { σ with
    name := name, alive := true, nrWorker := 0, refCount := 0, nrMaxWorker := n * multipleCpus
    nrIdleWorker := 0, nrMaxIdleWorker := n }

/-- One step of the thread that initialises and destroys the queue; `ok` is the outcome of
a `pthread` call that can fail. -/
def ownerStep (n : Nat) (ok : Bool) (σ : Shared ω) :
    OwnerPc → Option (Shared ω × OwnerPc × Effect)
  | .enter name =>
    if workqueueNameLen < name.utf8ByteSize + 1 then
      some (σ.warn ("Workqueue name is too long (max " ++ toString workqueueNameLen ++ ")"),
        .failed none, .none)
    else some (assignFields n σ name, .mutexInit, .none)
  | .mutexInit =>
    if ok then some ({ σ with locked := false, lockDestroyed := false }, .condInit, .none)
    else some (σ.warn "Cannot init mutex for workqueue", .failed none, .none)
  | .condInit =>
    if ok then some ({ σ with condDestroyed := false }, .listInit, .none)
    else some (σ.warn "Cannot init cond for workqueue", .lockDestroy none, .none)
  | .listInit => some ({ σ with workList := [] }, .loop 0, .none)
  | .loop i =>
    if i < n then some ({ σ with refCount := σ.refCount + 1 }, .create i, .none)
    else some (σ, .ready, .none)
  | .create i => if ok then some (σ, .loop (i + 1), .spawn) else some (σ, .uncount i, .none)
  | .uncount i =>
    some ({ σ with refCount := σ.refCount - 1 }.warn "Cannot create worker for workqueue",
      .cleanTest i, .none)
  | .cleanTest i =>
    if σ.nrWorker = 0 then some (σ, .cleanDestroy i, .none) else some (σ, .cleanSignal i, .none)
  | .cleanSignal i => some (σ.useCond, .cleanTest i, .signal)
  | .cleanDestroy i => some ({ σ with condDestroyed := true }, .exitTest (.cleanup i), .none)
  | .exitTest c =>
    if σ.refCount = 0 then some (σ, .exitLock c, .none) else some (σ, .exitSignal c, .none)
  | .exitSignal c => some (σ.useCond, .exitTest c, .signal)
  | .exitLock c => σ.lock.map fun σ' => (σ', .exitUnlock c, .none)
  | .exitUnlock (.cleanup i) => some (σ.unlock, .lockDestroy (some i), .none)
  | .exitUnlock .destroy => some (σ.unlock, .warnIdle, .none)
  | .lockDestroy i => some ({ σ with lockDestroyed := true }, .failed i, .none)
  | .failed _ => none
  | .ready => some (σ, .destroyLock, .none)
  | .destroyLock => σ.lock.map fun σ' => (σ', .destroyClear, .none)
  | .destroyClear => some ({ σ with alive := false }, .destroyUnlock, .none)
  | .destroyUnlock => some (σ.unlock, .drainList, .none)
  | .drainList =>
    if σ.workList.isEmpty then some (σ, .drainCount, .none) else some (σ, .drainSignal, .none)
  | .drainCount =>
    if σ.nrWorker = 0 then some (σ, .exitTest .destroy, .none) else some (σ, .drainSignal, .none)
  | .drainSignal => some (σ.useCond, .drainList, .signal)
  | .warnIdle =>
    if σ.nrIdleWorker = 0 then some (σ, .condDestroy, .none)
    else some (σ.warn ("There are " ++ toString σ.nrIdleWorker ++ " idle workers in workqueue"),
      .condDestroy, .none)
  | .condDestroy => some ({ σ with condDestroyed := true }, .mutexDestroy, .none)
  | .mutexDestroy => some ({ σ with lockDestroyed := true }, .destroyed, .none)
  | .destroyed => none

/-- Clients call `queue_work` from the return of `init_workqueue` to that of
`destroy_workqueue`. -/
def OwnerPc.accepting : OwnerPc → Bool
  | .ready | .destroyLock | .destroyClear | .destroyUnlock | .drainList | .drainCount
  | .drainSignal | .warnIdle | .condDestroy | .mutexDestroy => true
  | .exitTest c | .exitSignal c | .exitLock c | .exitUnlock c => c.created.isNone
  | _ => false

/-- The queue's threads: workers and calls in the order of their creation. -/
structure State (ω : Type) where
  shared : Shared ω
  workers : List (WorkerPc ω)
  calls : List (CallPc ω)
  owner : OwnerPc

inductive Event (ω : Type)
  | worker (k : Nat) (ok : Bool)
  | wake (k : Nat)
  | submit (work : ω)
  | call (k : Nat) (target : Option Nat)
  | owner (ok : Bool) (target : Option Nat)

variable [DecidableEq ω]

/-- The end of one worker's condition wait. -/
def wakeWorker (ws : List (WorkerPc ω)) (k : Nat) : Option (List (WorkerPc ω)) :=
  if ws[k]? = some .blocked then some (ws.set k .woken) else none

/-- A signal wakes a blocked worker, or nobody when no worker is blocked. -/
def perform (target : Option Nat) (ws : List (WorkerPc ω)) : Effect → Option (List (WorkerPc ω))
  | .none => some ws
  | .spawn => some (ws ++ [.created])
  | .signal =>
    match target with
    | some k => wakeWorker ws k
    | none => if .blocked ∈ ws then none else some ws

/-- One step of one thread. `wake` is a wait that ends without a signal. -/
def step (n : Nat) (s : State ω) : Event ω → Option (State ω)
  | .worker k ok => do
    let pc ← s.workers[k]?
    let (σ, pc', effect) ← workerStep ok s.shared pc
    let ws ← perform none (s.workers.set k pc') effect
    some { s with shared := σ, workers := ws }
  | .wake k => do
    let ws ← wakeWorker s.workers k
    some { s with workers := ws }
  | .submit work =>
    if s.owner.accepting then some { s with calls := s.calls ++ [.lock work] } else none
  | .call k target => do
    let pc ← s.calls[k]?
    let (σ, pc', effect) ← callStep s.shared pc
    let ws ← perform target s.workers effect
    some { s with shared := σ, workers := ws, calls := s.calls.set k pc' }
  | .owner ok target => do
    let (σ, pc', effect) ← ownerStep n ok s.shared s.owner
    let ws ← perform target s.workers effect
    some { s with shared := σ, workers := ws, owner := pc' }

/-- `init_workqueue` is about to run on memory with any contents; every work has been set
up by `INIT_WORK`. -/
def initial (old : WorkqueueStruct ω) (name : String) : State ω where
  shared :=
    { old with
      locked := false, lockDestroyed := true, condDestroyed := true, condMisused := false
      wq := fun _ => false, warnings := [], accepted := [], taken := []
      called := [], finished := [] }
  workers := []
  calls := []
  owner := .enter name

def OwnerPc.initialised (pc : OwnerPc) : Bool := pc.accepting || pc == .destroyed

def flushReturns (σ : Shared ω) (work : ω) : Bool := !σ.wq work

end CommonProject.Workqueue
