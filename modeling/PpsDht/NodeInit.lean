import PpsDht.Ring
import PpsDht.Lib.Decimal

/-! A virtual node: `get_server_addr` of `system.c` and `node_init` of `node.c`, on a
little-endian host. The digest of a node is taken of a text with its address, port and
number, printed into a buffer of 54 bytes. -/
namespace PpsDht

open CLib

/-- The bytes of a port exchanged; `ntohs` is the same. -/
def htons (port : UInt16) : UInt16 := UInt16.ofNat (port.toNat % 256 * 256 + port.toNat / 256)

def ntohs (port : UInt16) : UInt16 := htons port

theorem toNat_htons (port : UInt16) :
    (htons port).toNat = port.toNat % 256 * 256 + port.toNat / 256 := by
  have bound := port.toNat_lt
  rw [htons, UInt16.toNat_ofNat']
  omega

theorem ntohs_htons (port : UInt16) : ntohs (htons port) = port := by
  have bound := port.toNat_lt
  apply UInt16.toNat_inj.mp
  rw [ntohs, toNat_htons, toNat_htons]
  omega

/-- One part of a dotted address: up to three digits, without a leading zero, up to 255. -/
def octet (text : List UInt8) : Option Nat :=
  if text ≠ [] ∧ text.length ≤ 3 ∧ text.all Decimal.isDigit ∧
      (text.head? = some 48 → text.length = 1) ∧ Decimal.value text ≤ 255 then
    some (Decimal.value text)
  else none

/-- `inet_pton(AF_INET, ...)`: the address in network byte order. -/
def inetPton (ip : CString) : Option UInt32 :=
  match ip.bytes.splitOn 46 with
  | [a, b, c, d] =>
    match octet a, octet b, octet c, octet d with
    | some a, some b, some c, some d =>
      some (UInt32.ofNat (a + 256 * b + 256 ^ 2 * c + 256 ^ 3 * d))
    | _, _, _, _ => none
  | _ => none

theorem length_of_octet {text : List UInt8} {n : Nat} (read : octet text = some n) :
    text.length ≤ 3 := by
  rw [octet] at read
  split at read
  next good => exact good.2.1
  next => contradiction

/-- A valid address has at most four times three digits and three dots. -/
theorem inetPton_strlen_le {ip : CString} {address : UInt32} (valid : inetPton ip = some address) :
    ip.strlen ≤ 15 := by
  rw [inetPton] at valid
  split at valid
  next a b c d parts =>
    split at valid
    next wa wb wc wd ha hb hc hd =>
      have whole : [46].intercalate (ip.bytes.splitOn 46) = ip.bytes := List.intercalate_splitOn 46
      rw [parts] at whole
      have length := congrArg List.length whole
      have := length_of_octet ha
      have := length_of_octet hb
      have := length_of_octet hc
      have := length_of_octet hd
      simp [List.intercalate, List.intersperse] at length
      rw [CString.strlen]
      omega
    next => contradiction
  next => contradiction

def getServerAddr (ip : CString) (port : UInt16) : ErrorCode × Option SockAddr :=
  match inetPton ip with
  | none => (.network, none)
  | some address => (.none, some ⟨htons port, address⟩)

def inputSize : Nat := 54

/-- `snprintf` writes all but the last byte of the buffer at most. -/
def snprintf (size : Nat) (text : List UInt8) : CString := CString.ofMemory (text.take (size - 1))

/-- `"%s %d %lu"` -/
def nodeText (ip : CString) (port : UInt16) (nodeId : UInt64) : List UInt8 :=
  ip.bytes ++ 32 :: (Decimal.print port.toNat ++ 32 :: Decimal.print nodeId.toNat)

def nodeInput (ip : CString) (port : UInt16) (nodeId : UInt64) : CString :=
  snprintf inputSize (nodeText ip port nodeId)

def nodeInit (sha1 : List UInt8 → Digest) (ip : CString) (port : UInt16) (nodeId : UInt64) :
    ErrorCode × Option Node :=
  match getServerAddr ip port with
  | (.none, some addr) => (.none, some ⟨sha1 (nodeInput ip port nodeId).bytes, addr, 0⟩)
  | (error, _) => (error, none)

/-! The text of a node. -/

theorem length_nodeText_lt (ip : CString) (port : UInt16) (nodeId : UInt64)
    (short : ip.strlen ≤ 15) : (nodeText ip port nodeId).length < inputSize := by
  have portDigits : (Decimal.print port.toNat).length ≤ 5 :=
    Decimal.length_print_le (by decide) (Nat.lt_trans port.toNat_lt (by decide))
  have idDigits : (Decimal.print nodeId.toNat).length ≤ 20 :=
    Decimal.length_print_le (by decide) (Nat.lt_trans nodeId.toNat_lt (by decide))
  have length : ip.bytes.length ≤ 15 := short
  simp only [nodeText, List.length_append, List.length_cons, inputSize]
  omega

theorem zero_notMem_nodeText (ip : CString) (port : UInt16) (nodeId : UInt64) :
    (0 : UInt8) ∉ nodeText ip port nodeId := by
  simp [nodeText, ip.nulFree, Decimal.zero_notMem_print]

theorem bytes_nodeInput {ip : CString} (port : UInt16) (nodeId : UInt64) (short : ip.strlen ≤ 15) :
    (nodeInput ip port nodeId).bytes = nodeText ip port nodeId := by
  have fits : (nodeText ip port nodeId).length ≤ inputSize - 1 :=
    Nat.le_sub_one_of_lt (length_nodeText_lt ip port nodeId short)
  rw [nodeInput, snprintf, List.take_of_length_le fits, CString.bytes_ofMemory,
    List.takeWhile_eq_self_iff]
  intro byte member
  refine decide_eq_true ?_
  rintro rfl
  exact zero_notMem_nodeText ip port nodeId member

theorem blank_notMem_print (n : Nat) : (32 : UInt8) ∉ Decimal.print n :=
  fun member => absurd (Decimal.print_digits n 32 member) (by decide)

theorem nodeText_injective {ip ip' : CString} {port port' : UInt16} {nodeId nodeId' : UInt64}
    (solid : (32 : UInt8) ∉ ip.bytes) (solid' : (32 : UInt8) ∉ ip'.bytes)
    (same : nodeText ip port nodeId = nodeText ip' port' nodeId') :
    ip = ip' ∧ port = port' ∧ nodeId = nodeId' := by
  obtain ⟨address, rest⟩ := append_separator_inj solid solid' same
  obtain ⟨ports, ids⟩ := append_separator_inj (blank_notMem_print _) (blank_notMem_print _) rest
  exact ⟨CString.ext address, UInt16.toNat_inj.mp (Decimal.print_injective ports),
    UInt64.toNat_inj.mp (Decimal.print_injective ids)⟩

theorem nodeInit_eq_some_iff {sha1 : List UInt8 → Digest} {ip : CString} {port : UInt16}
    {nodeId : UInt64} {node : Node} :
    nodeInit sha1 ip port nodeId = (.none, some node) ↔ ∃ address, inetPton ip = some address ∧
      node = ⟨sha1 (nodeInput ip port nodeId).bytes, ⟨htons port, address⟩, 0⟩ := by
  rw [nodeInit, getServerAddr]
  cases inetPton ip with
  | none => simp
  | some address => simp [eq_comm]

/-- The text of a node is hashed whole and belongs to no other address, port and number,
so that nodes share a digest only where SHA1 gives two texts the same one. -/
theorem node_identities_distinct {ip ip' : CString} (port port' : UInt16)
    (nodeId nodeId' : UInt64) (short : ip.strlen ≤ 15) (short' : ip'.strlen ≤ 15)
    (solid : (32 : UInt8) ∉ ip.bytes) (solid' : (32 : UInt8) ∉ ip'.bytes) :
    (nodeText ip port nodeId).length < inputSize ∧
    (nodeInput ip port nodeId).bytes = nodeText ip port nodeId ∧
    (nodeInput ip port nodeId = nodeInput ip' port' nodeId' →
      ip = ip' ∧ port = port' ∧ nodeId = nodeId') ∧
    ∀ (sha1 : List UInt8 → Digest) (node node' : Node),
      nodeInit sha1 ip port nodeId = (.none, some node) →
      nodeInit sha1 ip' port' nodeId' = (.none, some node') → node.sha = node'.sha →
      (ip = ip' ∧ port = port' ∧ nodeId = nodeId') ∨
        nodeInput ip port nodeId ≠ nodeInput ip' port' nodeId' ∧
          sha1 (nodeInput ip port nodeId).bytes = sha1 (nodeInput ip' port' nodeId').bytes := by
  have injective (same : nodeInput ip port nodeId = nodeInput ip' port' nodeId') :
      ip = ip' ∧ port = port' ∧ nodeId = nodeId' := by
    have texts := congrArg CString.bytes same
    rw [bytes_nodeInput port nodeId short, bytes_nodeInput port' nodeId' short'] at texts
    exact nodeText_injective solid solid' texts
  refine ⟨length_nodeText_lt ip port nodeId short, bytes_nodeInput port nodeId short, injective, ?_⟩
  intro sha1 node node' made made' shared
  by_cases same : nodeInput ip port nodeId = nodeInput ip' port' nodeId'
  · exact .inl (injective same)
  · obtain ⟨_, _, rfl⟩ := nodeInit_eq_some_iff.mp made
    obtain ⟨_, _, rfl⟩ := nodeInit_eq_some_iff.mp made'
    exact .inr ⟨same, shared⟩

theorem node_identities_distinct_two :
    nodeInput (.ofMemory [49, 50, 55, 46, 48, 46, 48, 46, 49]) 1234 1 ≠
      nodeInput (.ofMemory [49, 50, 55, 46, 48, 46, 48, 46, 49]) 1234 2 := by
  intro same
  have equal := (node_identities_distinct 1234 1234 1 2 (by decide) (by decide) (by decide)
    (by decide)).2.2.1 same
  exact absurd equal.2.2 (by decide)

end PpsDht
