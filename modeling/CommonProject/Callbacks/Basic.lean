import CommonProject.RingList.Basic

/-! The callbacks of `callback.c`: a table of functions, linked into one ring for each type. -/
namespace CommonProject.Callbacks
open RingList

inductive CallbackType
  | nodeOnline
  | nodeOffline
  deriving DecidableEq, Repr

def CallbackType.value : CallbackType → BitVec 32
  | nodeOnline => 0#32
  | nodeOffline => 1#32

def callbackTypeNr : BitVec 32 := 2#32

/-- `struct callback`, its `list` member apart: a function gets the node and may change anything
but the lists. -/
structure Callback (Node World : Type) where
  type : BitVec 32
  func : Node → World → World

/-- The `struct list_head`s: `&node_cbs[i]`, and `&head_cb[i].list`. -/
inductive Cell
  | nodeCbs (i : Nat)
  | headCb (i : Nat)
  deriving DecidableEq, Repr

variable {Node World : Type}

/-- The second loop of `init_node_cbs`, from the entry `i` on. -/
def registerFrom (m : Memory Cell) : Nat → List (Callback Node World) → Memory Cell
  | _, [] => m
  | i, cb :: table =>
    if cb.type ≥ callbackTypeNr then registerFrom m (i + 1) table
    else
      let m := initListHead m (.headCb i)
      let m := listAddTail m (.headCb i) (.nodeCbs cb.type.toNat)
      registerFrom m (i + 1) table

def initHeads (m : Memory Cell) : Memory Cell :=
  (List.range callbackTypeNr.toNat).foldl (fun m i => initListHead m (.nodeCbs i)) m

def initNodeCbs (table : List (Callback Node World)) (m : Memory Cell) : Memory Cell :=
  registerFrom (initHeads m) 0 table

/-- `container_of`, where the cell is a member of an entry. -/
def callbackOf (table : List (Callback Node World)) : Cell → Option (Callback Node World)
  | .nodeCbs _ => none
  | .headCb i => table[i]?

/-- `list_for_each_entry` over the ring of `head`, from `pos` on: `none` when `fuel` turns do not
end it or `pos` is no entry. -/
def callLoop (table : List (Callback Node World)) (m : Memory Cell) (head : Cell) (node : Node) :
    Nat → Cell → World → Option World
  | 0, _, _ => none
  | fuel + 1, pos, w =>
    if pos = head then some w
    else (callbackOf table pos).bind fun cb =>
      callLoop table m head node fuel (m.next pos) (cb.func node w)

def callFunc (table : List (Callback Node World)) (m : Memory Cell) (fuel : Nat) (node : Node)
    (type : CallbackType) (w : World) : Option World :=
  let head := Cell.nodeCbs type.value.toNat
  callLoop table m head node fuel (m.next head) w

inductive Call (Node : Type)
  | initNodeCbs
  | nodeOnline (node : Node)
  | nodeOffline (node : Node)
  deriving DecidableEq, Repr

def Call.exec (table : List (Callback Node World)) (fuel : Nat) (s : Memory Cell × World) :
    Call Node → Option (Memory Cell × World)
  | initNodeCbs => some (Callbacks.initNodeCbs table s.1, s.2)
  | nodeOnline node => (callFunc table s.1 fuel node .nodeOnline s.2).map (s.1, ·)
  | nodeOffline node => (callFunc table s.1 fuel node .nodeOffline s.2).map (s.1, ·)

def execAll (table : List (Callback Node World)) (fuel : Nat) (s : Memory Cell × World)
    (calls : List (Call Node)) : Option (Memory Cell × World) :=
  calls.foldlM (Call.exec table fuel) s

/-- What `MSG` prints to, and the level it prints from. -/
structure Console where
  controlMsgLevel : Int
  printed : List String

def msg (level : Int) (text : String) (w : Console) : Console :=
  if level ≥ w.controlMsgLevel then { w with printed := w.printed ++ ["[MSG] " ++ text] } else w

def nodeOnlinePrint (id : Int) : Console → Console := msg 0 ("NODE " ++ toString id ++ " ONLINE\n")

def nodeOnlineEcho (id : Int) : Console → Console :=
  msg 0 ("NODE " ++ toString id ++ " ONLINE ECHO\n")

def nodeOfflinePrint (id : Int) : Console → Console :=
  msg 0 ("NODE " ++ toString id ++ " OFFLINE\n")

def headCb : List (Callback Int Console) :=
  [⟨CallbackType.nodeOnline.value, nodeOnlinePrint⟩, ⟨CallbackType.nodeOnline.value, nodeOnlineEcho⟩,
    ⟨CallbackType.nodeOffline.value, nodeOfflinePrint⟩]

end CommonProject.Callbacks
