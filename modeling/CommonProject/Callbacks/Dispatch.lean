import CommonProject.Callbacks.Basic

/-! After an initialisation every call of the component runs the functions of its type, in the
order of the table. -/
namespace CommonProject.Callbacks
open Foundations RingList
variable {Node World : Type} {table : List (Callback Node World)}

/-- What a call is for: the functions of the entries of its type, one after the other. -/
def dispatch (table : List (Callback Node World)) (type : CallbackType) (node : Node) (w : World) :
    World :=
  (table.filter (·.type = type.value)).foldl (fun w cb => cb.func node w) w

def Call.effect (table : List (Callback Node World)) (w : World) : Call Node → World
  | initNodeCbs => w
  | nodeOnline node => dispatch table .nodeOnline node w
  | nodeOffline node => dispatch table .nodeOffline node w

def entriesOf (table : List (Callback Node World)) (t : Nat) : List (Callback Node World × Nat) :=
  table.zipIdx.filter (·.1.type.toNat = t)

def cellsOf (table : List (Callback Node World)) (t : Nat) : List Cell :=
  (entriesOf table t).map (.headCb ·.2)

section Cells
variable {t : Nat}

private theorem cellsOf_append (pre : List (Callback Node World)) (cb : Callback Node World)
    (t : Nat) : cellsOf (pre ++ [cb]) t =
      cellsOf pre t ++ if cb.type.toNat = t then [.headCb pre.length] else [] := by
  rw [cellsOf, entriesOf, List.zipIdx_append, List.filter_append, List.map_append]
  by_cases ht : cb.type.toNat = t <;> simp [cellsOf, entriesOf, ht]

private theorem mem_cellsOf {c : Cell} :
    c ∈ cellsOf table t ↔ ∃ i cb, c = .headCb i ∧ table[i]? = some cb ∧ cb.type.toNat = t := by
  simp only [cellsOf, entriesOf, List.mem_map, List.mem_filter, decide_eq_true_eq, Prod.exists,
    List.mem_zipIdx_iff_getElem?]
  constructor
  · rintro ⟨cb, i, ⟨hi, ht⟩, rfl⟩
    exact ⟨i, cb, rfl, hi, ht⟩
  · rintro ⟨i, cb, rfl, hi, ht⟩
    exact ⟨cb, i, ⟨hi, ht⟩, rfl⟩

private theorem nodeCbs_not_mem (i : Nat) : .nodeCbs i ∉ cellsOf table t := by
  rw [mem_cellsOf]
  rintro ⟨_, _, ⟨⟩, -⟩

private theorem fresh_not_mem : .headCb table.length ∉ .nodeCbs t :: cellsOf table t := by
  rw [List.mem_cons, not_or, mem_cellsOf]
  refine ⟨nofun, ?_⟩
  rintro ⟨_, _, ⟨⟩, hi, -⟩
  simp at hi

/-- Rings of different types have no cell in common. -/
private theorem cells_apart {t' : Nat} {c : Cell} (hc : c ∈ .nodeCbs t :: cellsOf table t)
    (hc' : c ∈ .nodeCbs t' :: cellsOf table t') : t = t' := by
  rcases List.mem_cons.mp hc with rfl | hc
  · rcases List.mem_cons.mp hc' with heq | hc'
    · exact Cell.nodeCbs.inj heq
    · exact absurd hc' (nodeCbs_not_mem t)
  · rcases List.mem_cons.mp hc' with rfl | hc'
    · exact absurd hc (nodeCbs_not_mem t')
    · obtain ⟨i, cb, rfl, hi, rfl⟩ := mem_cellsOf.mp hc
      obtain ⟨j, cb', heq, hj, rfl⟩ := mem_cellsOf.mp hc'
      obtain rfl := Cell.headCb.inj heq
      rw [Option.some.inj (hi.symm.trans hj)]

private theorem ring_nodup (table : List (Callback Node World)) (t : Nat) :
    (Cell.nodeCbs t :: cellsOf table t).Nodup := by
  refine List.nodup_cons.mpr ⟨nodeCbs_not_mem t, ?_⟩
  have hidx : ((entriesOf table t).map Prod.snd).Nodup := by
    refine List.Nodup.sublist (List.filter_sublist.map Prod.snd) ?_
    rw [List.zipIdx_map_snd]
    exact List.nodup_range'
  have hcells : cellsOf table t = ((entriesOf table t).map Prod.snd).map .headCb := by
    rw [List.map_map]
    rfl
  exact hcells ▸ hidx.map fun _ _ h => Cell.headCb.inj h

private theorem length_cellsOf (table : List (Callback Node World)) (t : Nat) :
    (cellsOf table t).length ≤ table.length := by
  rw [cellsOf, List.length_map, entriesOf]
  exact (List.length_filter_le _ _).trans_eq List.length_zipIdx

end Cells

def Used (table : List (Callback Node World)) (c : Cell) : Prop :=
  ∃ t < callbackTypeNr.toNat, c ∈ .nodeCbs t :: cellsOf table t

/-- The entries of `table` are linked in the memory `m`, which is otherwise `m₀`. -/
structure Registered (m₀ m : Memory Cell) (table : List (Callback Node World)) : Prop where
  ring : ∀ t < callbackTypeNr.toNat, m.Ring (.nodeCbs t) (cellsOf table t)
  frame : ∀ c, ¬ Used table c → m.next c = m₀.next c ∧ m.prev c = m₀.prev c

section Registration
variable {m₀ m : Memory Cell}

private theorem initHeads_registered (m : Memory Cell) :
    Registered m (initHeads m) ([] : List (Callback Node World)) where
  ring t ht := by
    have ht : t = 0 ∨ t = 1 := by
      change t < 2 at ht
      omega
    change (initListHead (initListHead m (.nodeCbs 0)) (.nodeCbs 1)).Ring _ []
    rcases ht with rfl | rfl
    · exact initListHead_other (initListHead_ring _ _) (by simp)
    · exact initListHead_ring _ _
  frame c hc := by
    have h0 : c ≠ .nodeCbs 0 := fun h => hc ⟨0, by decide, h ▸ .head _⟩
    have h1 : c ≠ .nodeCbs 1 := fun h => hc ⟨1, by decide, h ▸ .head _⟩
    change (initListHead (initListHead m (.nodeCbs 0)) (.nodeCbs 1)).next c = _ ∧
      (initListHead (initListHead m (.nodeCbs 0)) (.nodeCbs 1)).prev c = _
    simp [initListHead, setNext, setPrev, h0, h1]

private theorem Used.append {pre : List (Callback Node World)} {c : Cell} (hc : Used pre c)
    (cb : Callback Node World) : Used (pre ++ [cb]) c := by
  obtain ⟨t, ht, hm⟩ := hc
  refine ⟨t, ht, List.cons_subset_cons _ ?_ hm⟩
  rw [cellsOf_append]
  exact List.subset_append_left _ _

/-- An entry without a type is passed over. -/
private theorem Registered.skip {pre : List (Callback Node World)} (hr : Registered m₀ m pre)
    {cb : Callback Node World} (hcb : cb.type ≥ callbackTypeNr) : Registered m₀ m (pre ++ [cb]) where
  ring t ht := by
    have hne : cb.type.toNat ≠ t := by
      have := BitVec.le_def.mp hcb
      omega
    rw [cellsOf_append, if_neg hne, List.append_nil]
    exact hr.ring t ht
  frame c hc := hr.frame c fun h => hc (h.append cb)

/-- An entry with a type becomes the last one of the ring of its type. -/
private theorem Registered.link {pre : List (Callback Node World)} (hr : Registered m₀ m pre)
    {cb : Callback Node World} (hcb : ¬ cb.type ≥ callbackTypeNr) :
    Registered m₀ (listAddTail (initListHead m (.headCb pre.length)) (.headCb pre.length)
      (.nodeCbs cb.type.toNat)) (pre ++ [cb]) := by
  have ht : cb.type.toNat < callbackTypeNr.toNat := by
    rw [ge_iff_le, BitVec.le_def] at hcb
    omega
  have hring : ∀ t < callbackTypeNr.toNat, (initListHead m (.headCb pre.length)).Ring (.nodeCbs t)
      (cellsOf pre t) := fun t ht => initListHead_other (hr.ring t ht) fresh_not_mem
  have hlast := (hring _ ht).prev_mem (.head _)
  rw [listAddTail, listAddInternal_eq]
  constructor
  · intro t ht'
    rw [cellsOf_append]
    split
    case isTrue heq =>
      subst heq
      exact (hring _ ht).insert_last (ring_nodup pre _) fresh_not_mem
    case isFalse hne =>
      rw [List.append_nil]
      refine (hring t ht').insertBetween_other fresh_not_mem (fun h => ?_) fun h => ?_
      · exact hne (cells_apart hlast.1 h)
      · exact hne (cells_apart (.head _) h)
  · intro c hc
    have hpre : ¬ Used pre c := fun h => hc (h.append cb)
    have hnew : c ≠ .headCb pre.length := by
      rintro rfl
      refine hc ⟨_, ht, List.mem_cons_of_mem _ ?_⟩
      rw [cellsOf_append, if_pos rfl]
      simp
    have hhead : c ≠ .nodeCbs cb.type.toNat := fun h => hpre ⟨_, ht, h ▸ .head _⟩
    have hprev : c ≠ (initListHead m (.headCb pre.length)).prev (.nodeCbs cb.type.toNat) := fun h =>
      hpre ⟨_, ht, h ▸ hlast.1⟩
    rw [← (hr.frame c hpre).1, ← (hr.frame c hpre).2]
    simp only [Links.insertBetween, Function.update_of_ne hprev, Function.update_of_ne hnew,
      Function.update_of_ne hhead]
    simp [initListHead, setNext, setPrev, hnew]

/-- The loop registers the entries left to it behind those before. -/
private theorem registerFrom_registered (todo : List (Callback Node World)) :
    ∀ {m : Memory Cell} {pre : List (Callback Node World)}, Registered m₀ m pre →
      Registered m₀ (registerFrom m pre.length todo) (pre ++ todo) := by
  induction todo with
  | nil =>
    intro m pre hr
    simpa [registerFrom] using hr
  | cons cb todo ih =>
    intro m pre hr
    have hlen : pre.length + 1 = (pre ++ [cb]).length := by simp
    rw [registerFrom, List.append_cons, hlen]
    split
    case isTrue hcb => exact ih (hr.skip hcb)
    case isFalse hcb => exact ih (hr.link hcb)

private theorem initNodeCbs_registered (table : List (Callback Node World)) (m : Memory Cell) :
    Registered m (initNodeCbs table m) table :=
  registerFrom_registered table (initHeads_registered m)

/-- The lists after an initialisation do not depend on those before it. -/
private theorem Registered.unique {m₁ m₂ m : Memory Cell} (h₁ : Registered m m₁ table)
    (h₂ : Registered m₁ m₂ table) : m₂ = m₁ := by
  have hcell : ∀ c, m₂.next c = m₁.next c ∧ m₂.prev c = m₁.prev c := by
    intro c
    by_cases hc : Used table c
    · obtain ⟨t, ht, hm⟩ := hc
      exact (h₁.ring t ht).fields_unique (h₂.ring t ht) hm
    · exact h₂.frame c hc
  cases m₁
  cases m₂
  congr
  · exact funext fun c => (hcell c).1
  · exact funext fun c => (hcell c).2

private theorem initNodeCbs_idempotent (table : List (Callback Node World)) (m : Memory Cell) :
    initNodeCbs table (initNodeCbs table m) = initNodeCbs table m :=
  (initNodeCbs_registered table m).unique (initNodeCbs_registered table _)

end Registration

section Dispatch
variable {m : Memory Cell} {node : Node}

/-- The loop calls the functions of the cells it visits. -/
private theorem callLoop_eq {head : Cell} {fuel : Nat} {pos : Cell} {cells : List Cell}
    (hwalk : Links.walk m.next head fuel pos = some cells) (w : World) :
    callLoop table m head node fuel pos w =
      cells.foldlM (fun w c => (callbackOf table c).map (·.func node w)) w := by
  induction fuel generalizing pos cells w with
  | zero => cases hwalk
  | succ fuel ih =>
    rw [Links.walk] at hwalk
    rw [callLoop]
    split
    case isTrue hpos =>
      rw [if_pos hpos] at hwalk
      cases hwalk
      rfl
    case isFalse hpos =>
      rw [if_neg hpos] at hwalk
      obtain ⟨rest, hrest, rfl⟩ := Option.map_eq_some_iff.mp hwalk
      rw [List.foldlM_cons]
      cases callbackOf table pos with
      | none => rfl
      | some cb => exact ih hrest _

private theorem foldlM_cells (es : List (Callback Node World × Nat))
    (hes : ∀ e ∈ es, table[e.2]? = some e.1) (node : Node) (w : World) :
    (es.map fun e => Cell.headCb e.2).foldlM (fun w c => (callbackOf table c).map (·.func node w)) w =
      some ((es.map Prod.fst).foldl (fun w cb => cb.func node w) w) := by
  induction es generalizing w with
  | nil => rfl
  | cons e es ih =>
    have hcb : callbackOf table (.headCb e.2) = some e.1 := hes e (.head _)
    rw [List.map_cons, List.foldlM_cons, hcb]
    exact ih (fun e he => hes e (List.mem_cons_of_mem _ he)) _

private theorem map_fst_entriesOf (table : List (Callback Node World)) (type : CallbackType) :
    (entriesOf table type.value.toNat).map Prod.fst = table.filter (·.type = type.value) := by
  have hfilter : entriesOf table type.value.toNat =
      table.zipIdx.filter ((fun cb => decide (cb.type = type.value)) ∘ Prod.fst) := by
    refine List.filter_congr fun e _ => ?_
    simp [BitVec.toNat_inj]
  rw [hfilter, ← List.filter_map, List.zipIdx_map_fst]

/-- A registered table is dispatched. -/
private theorem Registered.callFunc {m₀ : Memory Cell} (hr : Registered m₀ m table) {fuel : Nat}
    (hf : table.length < fuel) (node : Node) (type : CallbackType) (w : World) :
    callFunc table m fuel node type w = some (dispatch table type node w) := by
  have ht : type.value.toNat < callbackTypeNr.toNat := by cases type <;> decide
  have hwalk := (hr.ring _ ht).walk_next (nodeCbs_not_mem _) fuel
    ((length_cellsOf table _).trans_lt hf)
  have hes : ∀ e ∈ entriesOf table type.value.toNat, table[e.2]? = some e.1 := fun e he =>
    List.mem_zipIdx_iff_getElem?.mp (List.mem_filter.mp he).1
  rw [Callbacks.callFunc, callLoop_eq hwalk, cellsOf, foldlM_cells _ hes, map_fst_entriesOf]
  rfl

/-- One call, after an initialisation. -/
private theorem Call.exec_registered {fuel : Nat} (hf : table.length < fuel) (m : Memory Cell)
    (w : World) (call : Call Node) : call.exec table fuel (Callbacks.initNodeCbs table m, w) =
      some (Callbacks.initNodeCbs table m, call.effect table w) := by
  have hr := initNodeCbs_registered table m
  cases call with
  | initNodeCbs => rw [exec, initNodeCbs_idempotent]; rfl
  | nodeOnline node => rw [exec, hr.callFunc hf]; rfl
  | nodeOffline node => rw [exec, hr.callFunc hf]; rfl

private theorem execAll_registered {fuel : Nat} (hf : table.length < fuel) (m : Memory Cell)
    (w : World) (calls : List (Call Node)) : execAll table fuel (initNodeCbs table m, w) calls =
      some (initNodeCbs table m, calls.foldl (Call.effect table) w) := by
  induction calls generalizing w with
  | nil => rfl
  | cons call calls ih =>
    rw [execAll, List.foldlM_cons, Call.exec_registered hf]
    exact ih _

end Dispatch

/-- Whatever the table and the memory before: once initialised, any calls run exactly the functions
of their type in the order of the table and end, and further initialisations change nothing. -/
theorem dispatch_follows_table (table : List (Callback Node World)) (m : Memory Cell) (w : World)
    (calls : List (Call Node)) (fuel : Nat) (hf : table.length < fuel) :
    execAll table fuel (m, w) (.initNodeCbs :: calls) =
      some (initNodeCbs table m, calls.foldl (Call.effect table) w) ∧
    initNodeCbs table (initNodeCbs table m) = initNodeCbs table m :=
  ⟨execAll_registered hf m w calls, initNodeCbs_idempotent table m⟩

/-- The table of the source, initialised twice over lists never set up before. -/
theorem head_cb_dispatched :
    execAll headCb 4 (⟨id, id⟩, ⟨0, []⟩)
        [.initNodeCbs, .nodeOnline 1, .initNodeCbs, .nodeOffline 2] =
      some (initNodeCbs headCb ⟨id, id⟩, nodeOfflinePrint 2 (nodeOnlineEcho 1
        (nodeOnlinePrint 1 ⟨0, []⟩))) :=
  (dispatch_follows_table headCb ⟨id, id⟩ ⟨0, []⟩
    [.nodeOnline 1, .initNodeCbs, .nodeOffline 2] 4 (by decide)).1

end CommonProject.Callbacks
