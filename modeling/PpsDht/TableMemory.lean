import PpsDht.Htable
import PpsDht.Ring
import PpsDht.Lib.HeapProgram

/-! `hashtable.c` over the heap: tables, buckets, nodes and strings are blocks, and every
pointer of the source is an address. `create_node` asks for `sizeof(node)` bytes where
`node` is the pointer, so the bytes that the allocator grants for this request are a
parameter, and an access to a field beyond them is a fault. `calloc` clears what it
grants. Keys and values that are passed in belong to the caller. -/
namespace PpsDht

open CLib Loop Heap

abbrev Ptr := Nat

structure TableNode where
  key : Ptr
  value : Ptr
  next : Ptr
  deriving DecidableEq

inductive Field where
  | key
  | value
  | next
  deriving DecidableEq

def TableNode.get (n : TableNode) : Field → Ptr
  | .key => n.key
  | .value => n.value
  | .next => n.next

def TableNode.set (n : TableNode) (p : Ptr) : Field → TableNode
  | .key => { n with key := p }
  | .value => { n with value := p }
  | .next => { n with next := p }

/-- The bytes from the start of a node to the end of the field. -/
def Field.reach : Field → Nat
  | .key => 8
  | .value => 16
  | .next => 24

/-- What a block holds. A pair or a server that was never written after `realloc` is `none`. -/
inductive Cell where
  | string (s : CString)
  | node (granted : Nat) (n : TableNode)
  | buckets (heads : List Ptr)
  | table (elements : Ptr) (size : Nat)
  | kvPairs (slots : List (Option (Ptr × Ptr)))
  | kvList (elems : Ptr) (size allocated : Nat)
  | servers (slots : List (Option Node))
  | nodeList (nodes : Ptr) (size : Nat)
  deriving DecidableEq

/-- A program on the heap that draws its allocations from the outcomes to come. -/
abbrev Mem (α : Type) := Prog Cell Alloc α

abbrev Ram := Memory Cell Alloc

namespace Mem

def loadString (p : Ptr) : Mem CString := do
  match ← Prog.load p with
  | .string s => pure s
  | _ => Prog.fault

def loadField (p : Ptr) (f : Field) : Mem Ptr := do
  match ← Prog.load p with
  | .node granted n => if f.reach ≤ granted then pure (n.get f) else Prog.fault
  | _ => Prog.fault

def storeField (p : Ptr) (f : Field) (target : Ptr) : Mem Unit := do
  match ← Prog.load p with
  | .node granted n =>
    if f.reach ≤ granted then Prog.store p (.node granted (n.set target f)) else Prog.fault
  | _ => Prog.fault

/-- `elements[index].head` -/
def loadHead (elements : Ptr) (index : Nat) : Mem Ptr := do
  match ← Prog.load elements with
  | .buckets heads =>
    match heads[index]? with
    | some head => pure head
    | none => Prog.fault
  | _ => Prog.fault

def storeHead (elements : Ptr) (index : Nat) (head : Ptr) : Mem Unit := do
  match ← Prog.load elements with
  | .buckets heads =>
    if index < heads.length then Prog.store elements (.buckets (heads.set index head))
    else Prog.fault
  | _ => Prog.fault

def loadTable (table : Ptr) : Mem (Ptr × Nat) := do
  match ← Prog.load table with
  | .table elements size => pure (elements, size)
  | _ => Prog.fault

def calloc (c : Cell) : Mem Ptr := Prog.calloc malloc c

/-- Where a `kv_pair_t` lives: at the start of a node or in an array. -/
inductive PairAddress where
  | inNode (node : Ptr)
  | inArray (elems : Ptr) (index : Nat)

def loadPair : PairAddress → Mem (Ptr × Ptr)
  | .inNode node => do
    let key ← loadField node .key
    let value ← loadField node .value
    pure (key, value)
  | .inArray elems index => do
    match ← Prog.load elems with
    | .kvPairs slots =>
      match slots[index]? with
      | some (some pair) => pure pair
      | _ => Prog.fault
    | _ => Prog.fault

def storePair (pair : Ptr × Ptr) : PairAddress → Mem Unit
  | .inNode node => do
    storeField node .key pair.1
    storeField node .value pair.2
  | .inArray elems index => do
    match ← Prog.load elems with
    | .kvPairs slots =>
      if index < slots.length then Prog.store elems (.kvPairs (slots.set index (some pair)))
      else Prog.fault
    | _ => Prog.fault

def strdup (s : CString) : Mem Ptr := calloc (.string s)

def kvPairFree (kv : PairAddress) : Mem Unit := do
  let (key, value) ← loadPair kv
  Prog.free key
  Prog.free value
  storePair (0, 0) kv

def constructHtable (size : Nat) : Mem Ptr := do
  let table ← calloc (.table 0 0)
  if table ≠ 0 then
    let elements ← calloc (.buckets (List.replicate size 0))
    Prog.store table (.table elements 0)
    if elements ≠ 0 then Prog.store table (.table elements size)
    else
      Prog.free table
      return 0
  return table

/-- The second branch frees the value that could not be copied, not the key's copy. -/
def createNode (granted : Nat) (key value : CString) : Mem Ptr := do
  let node ← calloc (.node granted ⟨0, 0, 0⟩)
  if node = 0 then return node
  let keyCopy ← strdup key
  storeField node .key keyCopy
  if keyCopy = 0 then
    Prog.free node
    return 0
  let valueCopy ← strdup value
  storeField node .value valueCopy
  if valueCopy = 0 then
    Prog.free valueCopy
    Prog.free node
    return 0
  return node

/-- The nodes themselves are not freed. -/
def deleteNode : Nat → Ptr → Mem Unit
  | 0, _ => Prog.outOfFuel
  | fuel + 1, current => do
    if current = 0 then return ()
    kvPairFree (.inNode current)
    let next ← loadField current .next
    deleteNode fuel next
    storeField current .next 0

def deleteLoop (fuel : Nat) (table : Ptr) : Nat → Nat → Mem Unit
  | 0, _ => return ()
  | left + 1, i => do
    let (elements, _) ← loadTable table
    let head ← loadHead elements i
    deleteNode fuel head
    deleteLoop fuel table left (i + 1)

/-- What the caller's handle is afterwards. -/
def deleteHtableAndContent (fuel : Nat) (table : Ptr) : Mem Ptr := do
  let (_, size) ← loadTable table
  deleteLoop fuel table size 0
  let (elements, _) ← loadTable table
  Prog.free elements
  Prog.store table (.table 0 0)
  Prog.free table
  return 0

def matchesAt (current : Ptr) (key : CString) : Mem Bool := do
  let p ← loadField current .key
  let stored ← loadString p
  return decide (strncmp key.strlen stored.bytes key.bytes = 0)

/-- The loop of `add_Htable_value`; none when it goes on behind the last node. -/
def updateLoop (key value : CString) : Nat → Ptr → Mem (Option ErrorCode)
  | 0, _ => Prog.outOfFuel
  | fuel + 1, current => do
    if current = 0 then return none
    if ← matchesAt current key then
      let newValue ← strdup value
      if newValue = 0 then return some .nomem
      let old ← loadField current .value
      Prog.free old
      storeField current .value newValue
      return some .none
    let next ← loadField current .next
    updateLoop key value fuel next

def addHtableValue (fuel granted : Nat) (table : Ptr) (key value : CString) : Mem ErrorCode := do
  if table = 0 then return .badParameter
  let (elements, size) ← loadTable table
  if elements = 0 then return .badParameter
  let index := hashFunction key size
  let head ← loadHead elements index
  if head = 0 then
    let node ← createNode granted key value
    if node = 0 then return .nomem
    storeHead elements index node
    return .none
  match ← updateLoop key value fuel head with
  | some error => return error
  | none =>
    let node ← createNode granted key value
    if node = 0 then return .nomem
    storeField node .next head
    storeHead elements index node
    return .none

def findLoop (key : CString) : Nat → Ptr → Mem Ptr
  | 0, _ => Prog.outOfFuel
  | fuel + 1, current => do
    if current = 0 then return 0
    if ← matchesAt current key then
      let p ← loadField current .value
      let value ← loadString p
      strdup value
    else
      let next ← loadField current .next
      findLoop key fuel next

/-- The caller owns the copy that is returned. -/
def getHtableValue (fuel : Nat) (table : Ptr) (key : CString) : Mem Ptr := do
  let (elements, size) ← loadTable table
  if elements = 0 then return 0
  let head ← loadHead elements (hashFunction key size)
  findLoop key fuel head

def spliceLoop (key : CString) : Nat → Ptr → Ptr → Mem ErrorCode
  | 0, _, _ => Prog.outOfFuel
  | fuel + 1, last, current => do
    if current = 0 then return .none
    if ← matchesAt current key then
      let next ← loadField current .next
      storeField last .next next
      storeField current .next 0
      deleteNode (fuel + 1) current
      return .none
    let next ← loadField current .next
    spliceLoop key fuel current next

def delHtableKey (fuel : Nat) (table : Ptr) (key : CString) : Mem ErrorCode := do
  let (elements, size) ← loadTable table
  if elements = 0 then return .badParameter
  let head ← loadHead elements (hashFunction key size)
  spliceLoop key fuel 0 head

end Mem

end PpsDht
