import CommonProject.RingList.Basic
import CommonProject.Workqueue.Delivery

/-! The workqueue with its list in memory, a ring of the entries inside the works. -/
namespace CommonProject.Workqueue
open Foundations RingList
variable {ω : Type}

inductive Cell (ω : Type)
  | workList
  | entry (work : ω)
  deriving DecidableEq, Repr

/-- All fields but the sequence of the queued works. -/
def Shared.forget (σ : Shared ω) : Shared ω := { σ with workList := [] }

def State.forget (s : State ω) : State ω := { s with shared := s.shared.forget }

/-- The queue with its list in memory; the field `workList` of the state is not in use. -/
structure LinkedState (ω : Type) where
  state : State ω
  links : Memory (Cell ω)

section Code
variable [DecidableEq ω]

def linkedWorkerStep (ok : Bool) (σ : Shared ω) (m : Memory (Cell ω)) :
    WorkerPc ω → Option ((Shared ω × WorkerPc ω × Effect) × Memory (Cell ω))
  | .fetch =>
    if listEmpty m .workList then some ((σ, .checkAlive, .none), m)
    else
      match m.next .workList with
      | .workList => none
      | .entry work =>
        some (({ σ with taken := σ.taken ++ [work] }, .unlockRun work, .none),
          listDelInit m (.entry work))
  | .grow =>
    if σ.alive && !listEmpty m .workList && σ.nrIdleWorker == 0 &&
        decide (σ.refCount < σ.nrMaxWorker) then
      some (({ σ with refCount := σ.refCount + 1 }, .spawn, .none), m)
    else some ((σ, .fetch, .none), m)
  | pc => (workerStep ok σ pc).map fun r => (r, m)

def linkedCallStep (σ : Shared ω) (m : Memory (Cell ω)) :
    CallPc ω → Option ((Shared ω × CallPc ω × Effect) × Memory (Cell ω))
  | .insert work =>
    if σ.wq work then some ((σ, .unlock work .already, .none), m)
    else if σ.alive then
      some (({ σ with accepted := σ.accepted ++ [work] }, .storeWq work, .none),
        listAddTail m (.entry work) .workList)
    else some ((σ, .unlock work .dead, .none), m)
  | pc => (callStep σ pc).map fun r => (r, m)

def linkedOwnerStep (n : Nat) (ok : Bool) (σ : Shared ω) (m : Memory (Cell ω)) :
    OwnerPc → Option ((Shared ω × OwnerPc × Effect) × Memory (Cell ω))
  | .listInit => some ((σ, .loop 0, .none), initListHead m .workList)
  | .drainList =>
    if listEmpty m .workList then some ((σ, .drainCount, .none), m)
    else some ((σ, .drainSignal, .none), m)
  | pc => (ownerStep n ok σ pc).map fun r => (r, m)

def linkedStep (n : Nat) (c : LinkedState ω) : Event ω → Option (LinkedState ω)
  | .worker k ok => do
    let pc ← c.state.workers[k]?
    let ((σ, pc', effect), m) ← linkedWorkerStep ok c.state.shared c.links pc
    let ws ← perform none (c.state.workers.set k pc') effect
    some { state := { c.state with shared := σ, workers := ws }, links := m }
  | .call k target => do
    let pc ← c.state.calls[k]?
    let ((σ, pc', effect), m) ← linkedCallStep c.state.shared c.links pc
    let ws ← perform target c.state.workers effect
    some
      { state := { c.state with shared := σ, workers := ws, calls := c.state.calls.set k pc' }
        links := m }
  | .owner ok target => do
    let ((σ, pc', effect), m) ← linkedOwnerStep n ok c.state.shared c.links c.state.owner
    let ws ← perform target c.state.workers effect
    some { state := { c.state with shared := σ, workers := ws, owner := pc' }, links := m }
  | e => (step n c.state e).map fun s => { state := s, links := c.links }

end Code

/-- The list in memory is the sequence, and the entry of every other work stands alone. -/
structure Chained (m : Memory (Cell ω)) (l : List ω) : Prop where
  ring : m.Ring .workList (l.map .entry)
  nodup : l.Nodup
  alone : ∀ w ∉ l, m.next (.entry w) = .entry w ∧ m.prev (.entry w) = .entry w

def Alone (m : Memory (Cell ω)) : Prop :=
  ∀ w, m.next (.entry w) = .entry w ∧ m.prev (.entry w) = .entry w

section Chains
variable {m : Memory (Cell ω)} {l : List ω} {w : ω}

private theorem entry_mem {l : List ω} : Cell.entry w ∈ .workList :: l.map Cell.entry ↔ w ∈ l := by
  simp

private theorem Chained.cells_nodup (h : Chained m l) :
    (Cell.workList :: l.map Cell.entry).Nodup := by
  refine List.nodup_cons.mpr ⟨by simp, h.nodup.map ?_⟩
  exact fun a b hab => Cell.entry.inj hab

private theorem Chained.first {rest : List ω} (h : Chained m (w :: rest)) :
    m.next .workList = .entry w := h.ring.next_anchor

variable [DecidableEq ω]

private theorem Chained.empty_eq (h : Chained m l) : listEmpty m .workList = l.isEmpty := by
  cases l with
  | nil => simp [listEmpty, h.ring.next_anchor]
  | cons w l => simp [listEmpty, h.first]

private theorem chained_init (h : Alone m) : Chained (initListHead m .workList) ([] : List ω) := by
  refine ⟨initListHead_ring m .workList, List.nodup_nil, fun w _ => ?_⟩
  simpa [initListHead, setNext, setPrev] using h w

private theorem Chained.addTail (h : Chained m l) (hw : w ∉ l) :
    Chained (listAddTail m (.entry w) .workList) (l ++ [w]) := by
  have hnew : Cell.entry w ∉ .workList :: l.map Cell.entry := fun hm => hw (entry_mem.mp hm)
  refine ⟨?_, List.nodup_append.mpr ⟨h.nodup, by simp, ?_⟩, fun v hv => ?_⟩
  · rw [List.map_append]
    exact h.ring.insert_last h.cells_nodup hnew
  · rintro a ha b hb rfl
    exact hw (List.mem_singleton.mp hb ▸ ha)
  · -- the cells that change are the ring's and the new one
    have hv' : v ∉ l ∧ v ≠ w := by simpa using hv
    have hlast : m.prev .workList ≠ .entry v := by
      intro hp
      exact hv'.1 (entry_mem.mp (hp ▸ (h.ring.prev_mem List.mem_cons_self).1))
    have hne : Cell.entry v ≠ .entry w := fun he => hv'.2 (Cell.entry.inj he)
    obtain ⟨hnext, hprev⟩ := h.alone v hv'.1
    simp [listAddTail, listAddInternal_eq, Links.insertBetween, hne,
      Ne.symm hlast, hnext, hprev]

private theorem Chained.delInit {rest : List ω} (h : Chained m (w :: rest)) :
    Chained (listDelInit m (.entry w)) rest := by
  refine ⟨?_, (List.nodup_cons.mp h.nodup).2, fun v hv => ?_⟩
  · exact h.ring.unlink_mem (l := []) h.cells_nodup
  · rw [listDelInit_eq]
    by_cases hvw : v = w
    · rw [hvw]
      exact Links.unlink_self m _
    · have hout : Cell.entry v ∉ .workList :: (w :: rest).map Cell.entry := by
        rw [entry_mem]
        simp [hvw, hv]
      have hin : Cell.entry w ∈ .workList :: (w :: rest).map Cell.entry := by simp
      have hprev : m.prev (.entry w) ≠ .entry v := fun hp => hout (hp ▸ (h.ring.prev_mem hin).1)
      have hnext : m.next (.entry w) ≠ .entry v := fun hn => hout (hn ▸ (h.ring.next_mem hin).1)
      have hne : Cell.entry v ≠ .entry w := fun he => hvw (Cell.entry.inj he)
      obtain ⟨h1, h2⟩ := h.alone v (by simp [hvw, hv])
      simp [Links.unlink, hne, Ne.symm hprev, Ne.symm hnext, h1, h2]

end Chains

def Follows {π : Type} (r : (Shared ω × π × Effect) × Memory (Cell ω))
    (r' : Shared ω × π × Effect) : Prop :=
  r.1 = (r'.1.forget, r'.2) ∧ Chained r.2 r'.1.workList

section Local
variable [DecidableEq ω] {n : Nat} {ok : Bool} {σ : Shared ω} {m : Memory (Cell ω)}

omit [DecidableEq ω] in
private theorem follows_ite {π : Type} {c : Prop} [Decidable c]
    {a b : Option ((Shared ω × π × Effect) × Memory (Cell ω))}
    {a' b' : Option (Shared ω × π × Effect)} (h : Option.Rel Follows a a')
    (h' : Option.Rel Follows b b') :
    Option.Rel Follows (if c then a else b) (if c then a' else b') := by
  split
  · exact h
  · exact h'

omit [DecidableEq ω] in
private theorem follows_map_ite {π : Type} {c : Prop} [Decidable c]
    {a b a' b' : Option (Shared ω × π × Effect)}
    (h : Option.Rel Follows (a.map fun r => (r, m)) a')
    (h' : Option.Rel Follows (b.map fun r => (r, m)) b') :
    Option.Rel Follows ((if c then a else b).map fun r => (r, m)) (if c then a' else b') := by
  split
  · exact h
  · exact h'

omit [DecidableEq ω] in
private theorem lock_follows {π : Type} (pc : π) (hc : Chained m σ.workList) :
    Option.Rel Follows ((σ.forget.lock.map fun τ => (τ, pc, Effect.none)).map fun r => (r, m))
      (σ.lock.map fun τ => (τ, pc, Effect.none)) := by
  unfold Shared.lock
  have hl : σ.forget.locked = σ.locked := rfl
  rw [hl]
  split
  · exact .none
  · exact .some ⟨rfl, hc⟩

private theorem workerStep_follows (hc : Chained m σ.workList) (pc : WorkerPc ω) :
    Option.Rel Follows (linkedWorkerStep ok σ.forget m pc) (workerStep ok σ pc) := by
  have hempty := hc.empty_eq
  cases pc with
  | fetch =>
    cases hl : σ.workList with
    | nil =>
      rw [hl] at hempty hc
      simp only [linkedWorkerStep, workerStep, hempty, hl]
      exact .some ⟨rfl, hl ▸ hc⟩
    | cons work rest =>
      rw [hl] at hempty hc
      simp only [linkedWorkerStep, workerStep, hempty, hl, hc.first]
      exact .some ⟨rfl, hc.delInit⟩
  | grow =>
    simp only [linkedWorkerStep, workerStep, Shared.needsWorker, hempty]
    exact follows_ite (.some ⟨rfl, hc⟩) (.some ⟨rfl, hc⟩)
  | created | relock | woken => exact lock_follows _ hc
  | spawn => cases ok <;> exact .some ⟨rfl, hc⟩
  | checkAlive | surplusTest => exact follows_map_ite (.some ⟨rfl, hc⟩) (.some ⟨rfl, hc⟩)
  | blocked | exited => exact .none
  | _ => exact .some ⟨rfl, hc⟩

/-- The entry of an unmarked work is on no list when it is added. -/
private theorem callStep_follows (hc : Chained m σ.workList) {pc : CallPc ω}
    (hw : ∀ w, pc = .insert w → σ.wq w = false → w ∉ σ.workList) :
    Option.Rel Follows (linkedCallStep σ.forget m pc) (callStep σ pc) := by
  cases pc with
  | lock work => exact lock_follows _ hc
  | insert work =>
    have hwq : σ.forget.wq work = σ.wq work := rfl
    have hal : σ.forget.alive = σ.alive := rfl
    simp only [linkedCallStep, callStep, hwq, hal]
    cases hm : σ.wq work with
    | true => exact .some ⟨rfl, hc⟩
    | false =>
      refine follows_ite (.some ⟨rfl, hc⟩) (follows_ite (.some ⟨rfl, ?_⟩) (.some ⟨rfl, hc⟩))
      exact hc.addTail (hw work rfl hm)
  | notify work => exact follows_map_ite (.some ⟨rfl, hc⟩) (.some ⟨rfl, hc⟩)
  | returned work r => exact .none
  | _ => exact .some ⟨rfl, hc⟩

private theorem ownerStep_follows (hc : Chained m σ.workList) {o : OwnerPc} (hb : o.begun) :
    Option.Rel Follows (linkedOwnerStep n ok σ.forget m o) (ownerStep n ok σ o) := by
  have hempty := hc.empty_eq
  cases o with
  | drainList =>
    simp only [linkedOwnerStep, ownerStep, hempty]
    exact follows_ite (.some ⟨rfl, hc⟩) (.some ⟨rfl, hc⟩)
  | loop | cleanTest | exitTest | drainCount | warnIdle =>
    exact follows_map_ite (.some ⟨rfl, hc⟩) (.some ⟨rfl, hc⟩)
  | create => exact follows_map_ite (.some ⟨rfl, hc⟩) (.some ⟨rfl, hc⟩)
  | exitLock | destroyLock => exact lock_follows _ hc
  | exitUnlock c => cases c <;> exact .some ⟨rfl, hc⟩
  | enter | mutexInit | condInit | listInit => cases hb
  | failed | destroyed => exact .none
  | _ => exact .some ⟨rfl, hc⟩

end Local
/-- The state in memory is that of the sequence model; before `INIT_LIST_HEAD` there is no
list, and every work has been set up by `INIT_WORK`. -/
structure Represents (c : LinkedState ω) (s : State ω) : Prop where
  state : c.state = s.forget
  chained : s.owner.begun → Chained c.links s.shared.workList
  alone : s.owner.begun = false → Alone c.links

section Global
variable [DecidableEq ω] {n : Nat} {s : State ω} {c : LinkedState ω} {m : Memory (Cell ω)}

private theorem rel_refl {β : Type} (a : Option β) : Option.Rel Eq a a := by
  cases a with
  | none => exact .none
  | some b => exact .some rfl

/-- A call that is about to add an unmarked work finds it on no list. -/
private theorem Delivered.insert_not_queued (hd : Delivered s) (ha : Accounted n s) {k : Nat}
    {w : ω} (hk : s.calls[k]? = some (.insert w)) (hw : s.shared.wq w = false) :
    w ∉ s.shared.workList := by
  have hstoring : number (CallPc.storing w) s.calls = 0 := number_eq_zero.mpr fun pc hpc => by
    by_contra hst
    obtain ⟨j, hj⟩ := List.getElem?_of_mem hpc
    cases pc with
    | storeWq x =>
      obtain ⟨σ, pc', e, hs⟩ : ∃ σ pc' e, CallAct s.shared (.insert w) σ pc' e := by
        cases hal : s.shared.alive with
        | true => exact ⟨_, _, _, .insert hw hal⟩
        | false => exact ⟨_, _, _, .dead hw hal⟩
      obtain rfl := ha.call_alone hj rfl hk hs
      cases hj.symm.trans hk
    | _ => exact hst rfl
  have hheld := hd.held w
  have hnon := number_nonneg (WorkerPc.holds w) s.workers
  rw [hstoring, hw, Bool.toInt_false] at hheld
  exact List.count_eq_zero.mp (by omega)

private theorem linked_begun (ha : Accounted n s) (hd : Delivered s)
    (hc : Chained m s.shared.workList)
    (e : Event ω) : Option.Rel Represents (linkedStep n ⟨s.forget, m⟩ e) (step n s e) := by
  have hno : ¬ s.owner.begun = false := fun hn =>
    absurd (hn.symm.trans ha.begun) Bool.false_ne_true
  cases e with
  | worker k ok =>
    refine rel_bind (rel_refl _) ?_
    rintro pc _ - rfl
    refine rel_bind (workerStep_follows hc pc) ?_
    rintro ⟨⟨σ, pc', e⟩, m'⟩ ⟨τ, _, _⟩ - ⟨⟨rfl, rfl, rfl⟩, hc'⟩
    refine rel_bind (rel_refl _) ?_
    rintro ws _ - rfl
    exact .some ⟨rfl, fun _ => hc', fun hn => absurd hn hno⟩
  | wake k =>
    change Option.Rel _ (((wakeWorker s.workers k).bind _).map _) ((wakeWorker s.workers k).bind _)
    cases wakeWorker s.workers k with
    | none => exact .none
    | some ws => exact .some ⟨rfl, fun _ => hc, fun hn => absurd hn hno⟩
  | submit work =>
    cases hacc : s.owner.accepting with
    | true =>
      simp only [linkedStep, step, State.forget, hacc]
      exact .some ⟨rfl, fun _ => hc, fun hn => absurd hn hno⟩
    | false =>
      simp only [linkedStep, step, State.forget, hacc]
      exact .none
  | call k target =>
    refine rel_bind (rel_refl _) ?_
    rintro pc _ hk rfl
    refine rel_bind (callStep_follows hc fun w hw hun => ?_) ?_
    · exact hd.insert_not_queued ha (hw ▸ hk) hun
    rintro ⟨⟨σ, pc', e⟩, m'⟩ ⟨τ, _, _⟩ - ⟨⟨rfl, rfl, rfl⟩, hc'⟩
    refine rel_bind (rel_refl _) ?_
    rintro ws _ - rfl
    exact .some ⟨rfl, fun _ => hc', fun hn => absurd hn hno⟩
  | owner ok target =>
    refine rel_bind (ownerStep_follows hc ha.begun) ?_
    rintro ⟨⟨σ, pc', e⟩, m'⟩ ⟨τ, _, _⟩ hs ⟨⟨rfl, rfl, rfl⟩, hc'⟩
    refine rel_bind (rel_refl _) ?_
    rintro ws _ - rfl
    have hb := (OwnerAct.counts (ownerStep_act hs) ha.begun).1
    exact .some ⟨rfl, fun _ => hc', fun hn => absurd (hn.symm.trans hb) Bool.false_ne_true⟩

def Opens (r : (Shared ω × OwnerPc × Effect) × Memory (Cell ω))
    (r' : Shared ω × OwnerPc × Effect) : Prop :=
  r.1 = (r'.1.forget, r'.2) ∧ (r'.2.1.begun → Chained r.2 r'.1.workList) ∧
    (r'.2.1.begun = false → Alone r.2)

omit [DecidableEq ω] in
private theorem opens_before {r : (Shared ω × OwnerPc × Effect) × Memory (Cell ω)}
    {r' : Shared ω × OwnerPc × Effect} (hr : r.1 = (r'.1.forget, r'.2)) (hm : Alone r.2)
    (hb : r'.2.1.begun = false) : Opens r r' :=
  ⟨hr, fun h => absurd (hb.symm.trans h) Bool.false_ne_true, fun _ => hm⟩

/-- The steps of the owner up to `INIT_LIST_HEAD`. -/
private theorem ownerStep_opens {ok : Bool} {σ : Shared ω} {o : OwnerPc} (hb : o.begun = false)
    (hm : Alone m) :
    Option.Rel Opens (linkedOwnerStep n ok σ.forget m o) (ownerStep n ok σ o) := by
  cases o with
  | enter name =>
    simp only [linkedOwnerStep, ownerStep]
    split
    · exact .some (opens_before rfl hm rfl)
    · exact .some (opens_before rfl hm rfl)
  | mutexInit => cases ok <;> exact .some (opens_before rfl hm rfl)
  | condInit => cases ok <;> exact .some (opens_before rfl hm rfl)
  | listInit =>
    refine .some ⟨rfl, fun _ => chained_init hm, fun h => ?_⟩
    cases h
  | lockDestroy i =>
    cases i with
    | none => exact .some (opens_before rfl hm rfl)
    | some i => cases hb
  | failed i => exact .none
  | _ => cases hb

private theorem linked_opening {old : WorkqueueStruct ω} {name : String} (ho : Opening n old name s)
    (hm : Alone m) (e : Event ω) :
    Option.Rel Represents (linkedStep n ⟨s.forget, m⟩ e) (step n s e) := by
  have hw := ho.workers
  have hcalls := ho.calls
  have hacc : s.owner.accepting = false := by
    rcases ho.owner with h | h | h | h | h | h <;> simp [h, OwnerPc.accepting]
  cases e with
  | worker k ok => simp [linkedStep, step, State.forget, hw]
  | wake k => simp [linkedStep, step, State.forget, wakeWorker, hw]
  | submit work => simp [linkedStep, step, State.forget, hacc]
  | call k target => simp [linkedStep, step, State.forget, hcalls]
  | owner ok target =>
    refine rel_bind (ownerStep_opens ho.notBegun hm) ?_
    rintro ⟨⟨σ, pc', e⟩, m'⟩ ⟨τ, _, _⟩ - ⟨⟨rfl, rfl, rfl⟩, hc', hm'⟩
    refine rel_bind (rel_refl _) ?_
    rintro ws _ - rfl
    exact .some ⟨rfl, hc', hm'⟩

end Global

section Runs
variable [DecidableEq ω] {n : Nat}

def linkedInitial (old : WorkqueueStruct ω) (name : String) (m : Memory (Cell ω)) :
    LinkedState ω where
  state := (initial old name).forget
  links := m

/-- The queue with its list in memory and the queue with a sequence of works can do the same:
after any events both have stopped, or their states agree, the ring of entries from `work_list`
spells the sequence, and all other entries are linked to themselves. -/
theorem linked_refines (n : Nat) (old : WorkqueueStruct ω) (name : String)
    {m : Memory (Cell ω)} (hm : Alone m) (es : List (Event ω)) :
    Option.Rel Represents (run (linkedStep n) (linkedInitial old name m) es)
      (run (step n) (initial old name) es) := by
  refine run_related (I := fun s => Opening n old name s ∨ Accounted n s ∧ Delivered s)
    (fun s e t hs he => ?_) (fun s c e hs hc => ?_) (.inl ⟨rfl, rfl, rfl, .inl ⟨rfl, rfl⟩⟩)
    ⟨rfl, fun h => absurd h Bool.false_ne_true, fun _ => hm⟩ es
  · rcases hs with ho | ⟨ha, hd⟩
    · rcases ho.move (step_move he) with ho | rfl
      · exact .inl ho
      · exact .inr ⟨(opened_sound n old name).accounted, opened_delivered n old name⟩
    · exact .inr ⟨ha.move (step_move he), hd.move ha (step_move he)⟩
  · obtain ⟨cs, links⟩ := c
    obtain rfl : cs = s.forget := hc.state
    rcases hs with ho | ⟨ha, hd⟩
    · exact linked_opening ho (hc.alone ho.notBegun) e
    · exact linked_begun ha hd (hc.chained ha.begun) e

theorem one_work_linked : ∃ (c : LinkedState Nat) (s : State Nat),
    run (linkedStep 1) (linkedInitial unset "wq" ⟨id, id⟩)
      (List.replicate 7 (.owner true none) ++ .submit 5 :: .replicate 2 (.call 0 none)) = some c ∧
    s.shared.workList = [5] ∧ Represents c s := by
  have h := linked_refines 1 unset "wq" (m := ⟨id, id⟩) (fun _ => ⟨rfl, rfl⟩)
    (List.replicate 7 (.owner true none) ++ .submit 5 :: .replicate 2 (.call 0 none))
  cases hrun : run (linkedStep 1) (linkedInitial unset "wq" ⟨id, id⟩)
      (List.replicate 7 (.owner true none) ++ .submit 5 :: .replicate 2 (.call 0 none)) with
  | none =>
    rw [hrun] at h
    cases h
  | some c =>
    rw [hrun] at h
    exact ⟨c, _, rfl, rfl, by cases h; assumption⟩

end Runs
end CommonProject.Workqueue
