import PpsDht.NodeInit
import PpsDht.Lib.Scan
import Mathlib.Algebra.GroupWithZero.Nat

/-! The server file: `get_nodes` of `node_list.c`. A file is the bytes that can still be
read and what comes behind them, its end or an error. The fields of a line are found by
`fscanf`; what it finds is compared with the words of the file. -/
namespace PpsDht

open CLib Loop

/-- `ended` once the end or the error has been met. -/
structure File where
  text : List UInt8
  fails : Bool
  ended : Bool
  deriving DecidableEq

def feof (file : File) : Bool := file.ended && !file.fails

def ferror (file : File) : Bool := file.ended && file.fails

def maxIpSize : Nat := 15

def maxPort : Int := 65535

inductive Scanned where
  | eof
  | partly (count : Nat)
  | all (ip : List UInt8) (port : Int) (nbNodes : UInt64)

/-- `fscanf(file, "%15s %d %lu", ip, &port, &nb_nodes)`. Nothing is read from the file
after a partial match. -/
def fscanf (file : File) : Scanned × File :=
  match Scan.string maxIpSize file.text with
  | none => (.eof, { file with text := [], ended := true })
  | some (ip, rest) =>
    match Scan.number rest with
    | none => (.partly 1, file)
    | some (port, rest) =>
      match Scan.number rest with
      | none => (.partly 2, file)
      | some (nbNodes, rest) =>
        -- the digits of the last field are followed up to the end of the file
        (.all ip port.toInt nbNodes.toUnsigned, { file with text := rest, ended := rest.isEmpty })

/-- The loop over the nodes of one server, `remaining` of them from number `i` on. -/
def addNodes (sha1 : List UInt8 → Digest) (ip : CString) (port : UInt16) :
    Nat → Nat → NodeList → Alloc → Option NodeList × Alloc
  | 0, _, list, a => (some list, a)
  | remaining + 1, i, list, a =>
    match nodeInit sha1 ip port (UInt64.ofNat i) with
    | (.none, some node) =>
      match nodeListAdd list node a with
      | (.none, list, a) => addNodes sha1 ip port remaining (i + 1) list a
      | (_, _, a) => (none, a)
    | _ => (none, a)

/-- One evaluation of `while (!feof(file) && !ferror(file))`. -/
def readStep (sha1 : List UInt8 → Digest) (s : File × NodeList × Alloc) :
    Step (File × NodeList × Alloc) (Option NodeList × Alloc) :=
  let (file, list, a) := s
  if !feof file && !ferror file then
    match fscanf file with
    | (.all ip port nbNodes, file) =>
      if port < 0 ∨ maxPort < port then .done (none, a)
      else
        match addNodes sha1 (CString.ofMemory ip) (UInt16.ofNat port.toNat) nbNodes.toNat 1 list a with
        | (none, a) => .done (none, a)
        | (some list, a) => .next (file, list, a)
    | (.eof, file) => .next (file, list, a)
    | (.partly _, _) => .done (none, a)
  else .done (some list, a)

/-- A file that cannot be opened is `none`. -/
def getNodes (sha1 : List UInt8 → Digest) (file : Option File) (fuel : Nat) (a : Alloc) :
    Outcome (Option NodeList × Alloc) :=
  match malloc a with
  | (false, a) => .done (none, a)
  | (true, a) =>
    match file with
    | none => .done (none, a)
    | some file => iterate (readStep sha1) fuel (file, [], a)

/-! What a server file says. -/

structure Triple where
  ip : CString
  address : UInt32
  port : UInt16
  count : Nat

/-- The words of a file give the triples: an address, a port and a number of nodes each. -/
inductive Spells : List (List UInt8) → List Triple → Prop
  | nil : Spells [] []
  | cons (t : Triple) {port count : List UInt8} {words : List (List UInt8)} {triples : List Triple}
      (address : inetPton t.ip = some t.address)
      (portNumber : Scan.integer port = some (t.port.toNat : Int))
      (countNumber : Scan.integer count = some (t.count : Int)) (later : Spells words triples) :
      Spells (t.ip.bytes :: port :: count :: words) (t :: triples)

def virtualNode (sha1 : List UInt8 → Digest) (ip : CString) (address : UInt32) (port : UInt16)
    (nodeId : Nat) : Node :=
  ⟨sha1 (nodeInput ip port (UInt64.ofNat nodeId)).bytes, ⟨htons port, address⟩, 0⟩

def Triple.nodes (sha1 : List UInt8 → Digest) (t : Triple) : NodeList :=
  (List.range' 1 t.count).map (virtualNode sha1 t.ip t.address t.port)

/-- A list that `get_nodes` returns comes from a file read to its end, and is what the file
says. -/
structure ReadsFile (sha1 : List UInt8 → Digest) (text : List UInt8) (fails : Bool) : Prop where
  returns : ∀ fuel, text.length + 1 < fuel → ∃ result left,
    getNodes sha1 (some ⟨text, fails, false⟩) fuel [] = .done (result, left)
  whole : ∀ fuel list left, getNodes sha1 (some ⟨text, fails, false⟩) fuel [] = .done (some list, left) →
    fails = false ∧ ∃ triples, Spells (Scan.words text) triples ∧
      list = triples.flatMap (Triple.nodes sha1)

/-! What `fscanf` finds in a file. -/

structure Record where
  ip : List UInt8
  behindIp : List UInt8
  port : Scan.Numeral
  behindPort : List UInt8
  nbNodes : Scan.Numeral
  behindNodes : List UInt8

namespace Record

structure Matches (text : List UInt8) (r : Record) : Prop where
  ip : Scan.string maxIpSize text = some (r.ip, r.behindIp)
  port : Scan.number r.behindIp = some (r.port, r.behindPort)
  nbNodes : Scan.number r.behindPort = some (r.nbNodes, r.behindNodes)

def count (r : Record) : Nat := r.nbNodes.toUnsigned.toNat

structure Accepted (r : Record) : Prop where
  port : 0 ≤ r.port.toInt ∧ r.port.toInt ≤ maxPort
  address : r.count ≠ 0 → (inetPton (CString.ofMemory r.ip)).isSome = true

/-- What it does not check: that each field is a word of its own, that the address is one
also where no node is made, and that the numbers are what they are stored as. -/
structure Clean (r : Record) : Prop where
  ip : Scan.Separated r.behindIp
  nulFree : (0 : UInt8) ∉ r.ip
  address : (inetPton (CString.ofMemory r.ip)).isSome = true
  port : Scan.Separated r.behindPort
  portRange : 0 ≤ r.port.value ∧ r.port.value ≤ maxPort
  nbNodes : Scan.Separated r.behindNodes
  nonnegative : 0 ≤ r.nbNodes.value

def nodes (sha1 : List UInt8 → Digest) (r : Record) : NodeList :=
  (List.range' 1 r.count).map (virtualNode sha1 (CString.ofMemory r.ip)
    ((inetPton (CString.ofMemory r.ip)).getD 0) (UInt16.ofNat r.port.toInt.toNat))

end Record

/-- Match after match, until only blanks are left. -/
inductive Records : List UInt8 → List Record → Prop
  | nil {text : List UInt8} (blank : text.dropWhile Decimal.isSpace = []) : Records text []
  | cons {text : List UInt8} {record : Record} {records : List Record}
      (first : record.Matches text) (later : Records record.behindNodes records) :
      Records text (record :: records)

def nodeCount (records : List Record) : Nat := (records.map Record.count).sum

/-! The run of the loop. -/

theorem not_ended (text : List UInt8) (fails : Bool) :
    (!feof ⟨text, fails, false⟩ && !ferror ⟨text, fails, false⟩) = true := rfl

@[simp] theorem nodeCount_cons (record : Record) (records : List Record) :
    nodeCount (record :: records) = record.count + nodeCount records := by
  simp [nodeCount]

@[simp] theorem Record.length_nodes (sha1 : List UInt8 → Digest) (record : Record) :
    (record.nodes sha1).length = record.count := by
  simp [Record.nodes]

theorem nodeInit_eq (sha1 : List UInt8 → Digest) (ip : CString) (port : UInt16) (nodeId : Nat)
    {address : UInt32} (valid : inetPton ip = some address) :
    nodeInit sha1 ip port (UInt64.ofNat nodeId) =
      (.none, some (virtualNode sha1 ip address port nodeId)) :=
  nodeInit_eq_some_iff.mpr ⟨address, valid, rfl⟩

theorem addNodes_eq_some_iff (sha1 : List UInt8 → Digest) (ip : CString) (port : UInt16)
    (remaining i : Nat) (list out : NodeList) (left : Alloc)
    (room : list.length ≤ sizeMax / sizeofNode) :
    addNodes sha1 ip port remaining i list [] = (some out, left) ↔
      left = [] ∧ (remaining ≠ 0 → (inetPton ip).isSome = true) ∧
        list.length + remaining ≤ sizeMax / sizeofNode ∧
        out = list ++ (List.range' i remaining).map
          (virtualNode sha1 ip ((inetPton ip).getD 0) port) := by
  induction remaining generalizing i list with
  | zero =>
    simp only [addNodes, Prod.mk.injEq, Option.some.injEq]
    constructor
    · rintro ⟨rfl, rfl⟩
      exact ⟨rfl, by simp, room, by simp⟩
    · rintro ⟨rfl, _, _, rfl⟩
      simp
  | succ remaining ih =>
    cases valid : inetPton ip with
    | none => simp [addNodes, nodeInit, getServerAddr, valid]
    | some address =>
      simp only [addNodes, nodeInit_eq sha1 ip port i valid, nodeListAdd, malloc_nil]
      by_cases full : sizeMax / sizeofNode < list.length + 1
      · simp only [if_pos full]
        refine iff_of_false (by simp) ?_
        rintro ⟨_, _, fits, _⟩
        omega
      · simp only [if_neg full]
        rw [ih (i + 1) _ (by rw [List.length_append, List.length_singleton]; omega)]
        simp only [valid, List.length_append, List.length_singleton, Option.getD_some,
          List.range'_succ, List.map_cons, List.append_assoc, List.singleton_append,
          Option.isSome_some, implies_true, true_and]
        rw [show list.length + 1 + remaining = list.length + (remaining + 1) by omega]

theorem Record.Matches.not_blank {text : List UInt8} {record : Record}
    (found : record.Matches text) : text.dropWhile Decimal.isSpace ≠ [] := by
  intro blank
  have read := found.ip
  rw [(Scan.string_eq_none_iff maxIpSize text).mpr blank] at read
  contradiction

theorem Record.Matches.address {text ip behindIp : List UInt8} {record : Record}
    (found : record.Matches text) (first : Scan.string maxIpSize text = some (ip, behindIp)) :
    record.ip = ip ∧ record.behindIp = behindIp := by
  have same := found.ip.symm.trans first
  simpa only [Option.some.injEq, Prod.mk.injEq] using same

theorem Record.Matches.unique {text : List UInt8} {record other : Record}
    (found : record.Matches text) (again : other.Matches text) : record = other := by
  obtain ⟨ip, behindIp, port, behindPort, nbNodes, behindNodes⟩ := record
  obtain ⟨ip', behindIp', port', behindPort', nbNodes', behindNodes'⟩ := other
  obtain ⟨rfl, rfl⟩ := again.address found.ip
  have second := found.port.symm.trans again.port
  simp only [Option.some.injEq, Prod.mk.injEq] at second
  obtain ⟨rfl, rfl⟩ := second
  have third := found.nbNodes.symm.trans again.nbNodes
  simp only [Option.some.injEq, Prod.mk.injEq] at third
  obtain ⟨rfl, rfl⟩ := third
  rfl

theorem Records.unique {text : List UInt8} {records others : List Record}
    (found : Records text records) (again : Records text others) : records = others := by
  induction found generalizing others with
  | nil blank =>
    cases again with
    | nil => rfl
    | cons first => exact absurd blank first.not_blank
  | cons first later ih =>
    cases again with
    | nil blank => exact absurd blank first.not_blank
    | cons first' later' =>
      obtain rfl := first.unique first'
      rw [ih later']

theorem fscanf_cases (text : List UInt8) (fails : Bool) :
    (text.dropWhile Decimal.isSpace = [] ∧ fscanf ⟨text, fails, false⟩ = (.eof, ⟨[], fails, true⟩)) ∨
    (∃ count, fscanf ⟨text, fails, false⟩ = (.partly count, ⟨text, fails, false⟩) ∧
      ∀ records, ¬ Records text records) ∨
    ∃ record : Record, record.Matches text ∧ fscanf ⟨text, fails, false⟩ =
      (.all record.ip record.port.toInt record.nbNodes.toUnsigned,
        ⟨record.behindNodes, fails, record.behindNodes.isEmpty⟩) := by
  have unmatched (blank : text.dropWhile Decimal.isSpace ≠ []) (none : ∀ r, ¬ Record.Matches text r)
      (records : List Record) : ¬ Records text records := by
    intro found
    cases found with
    | nil blank' => exact blank blank'
    | cons first => exact none _ first
  simp only [fscanf]
  rcases first : Scan.string maxIpSize text with _ | ⟨ip, behindIp⟩
  · exact .inl ⟨(Scan.string_eq_none_iff maxIpSize text).mp first, rfl⟩
  have more : text.dropWhile Decimal.isSpace ≠ [] := by
    intro blank
    rw [(Scan.string_eq_none_iff maxIpSize text).mpr blank] at first
    contradiction
  rcases second : Scan.number behindIp with _ | ⟨port, behindPort⟩
  · refine .inr (.inl ⟨1, by simp only [second], unmatched more fun r found => ?_⟩)
    have read := found.port
    rw [(found.address first).2, second] at read
    contradiction
  rcases third : Scan.number behindPort with _ | ⟨nbNodes, behindNodes⟩
  · refine .inr (.inl ⟨2, by simp only [second, third], unmatched more fun r found => ?_⟩)
    have next := found.port
    rw [(found.address first).2, second, Option.some.injEq, Prod.mk.injEq] at next
    have read := found.nbNodes
    rw [← next.2, third] at read
    contradiction
  · exact .inr (.inr ⟨⟨ip, behindIp, port, behindPort, nbNodes, behindNodes⟩,
      ⟨first, second, third⟩, by simp only [second, third]⟩)

theorem readStep_record (sha1 : List UInt8 → Digest) {text : List UInt8} {fails : Bool}
    {record : Record} {list : NodeList} (room : list.length ≤ sizeMax / sizeofNode)
    (found : fscanf ⟨text, fails, false⟩ = (.all record.ip record.port.toInt
      record.nbNodes.toUnsigned, ⟨record.behindNodes, fails, record.behindNodes.isEmpty⟩)) :
    (record.Accepted ∧ list.length + record.count ≤ sizeMax / sizeofNode ∧
      readStep sha1 (⟨text, fails, false⟩, list, []) =
        .next (⟨record.behindNodes, fails, record.behindNodes.isEmpty⟩,
          list ++ record.nodes sha1, [])) ∨
    ¬ (record.Accepted ∧ list.length + record.count ≤ sizeMax / sizeofNode) ∧
      ∃ left, readStep sha1 (⟨text, fails, false⟩, list, []) = .done (none, left) := by
  simp only [readStep, not_ended, found, ↓reduceIte]
  by_cases range : record.port.toInt < 0 ∨ maxPort < record.port.toInt
  · refine .inr ⟨?_, [], by rw [if_pos range]⟩
    rintro ⟨⟨⟨low, high⟩, _⟩, _⟩
    omega
  · rw [if_neg range]
    have added := addNodes_eq_some_iff sha1 (CString.ofMemory record.ip)
      (UInt16.ofNat record.port.toInt.toNat) record.nbNodes.toUnsigned.toNat 1 list
    rcases result : addNodes sha1 (CString.ofMemory record.ip)
      (UInt16.ofNat record.port.toInt.toNat) record.nbNodes.toUnsigned.toNat 1 list [] with
      ⟨_ | out, left⟩
    · refine .inr ⟨?_, left, rfl⟩
      rintro ⟨accepted, fits⟩
      have complete := (added _ [] room).mpr ⟨rfl, accepted.address, fits, rfl⟩
      rw [result] at complete
      simp at complete
    · obtain ⟨rfl, address, fits, rfl⟩ := (added _ _ room).mp result
      exact .inl ⟨⟨by omega, address⟩, fits, rfl⟩

theorem records_nil {records : List Record} (found : Records [] records) : records = [] := by
  cases found with
  | nil => rfl
  | cons first => exact absurd rfl first.not_blank

/-- The state of the reading loop: its end is met only when nothing is left. -/
structure Reading (file : File) (list : NodeList) : Prop where
  ended : file.ended = true → file.text = []
  room : list.length ≤ sizeMax / sizeofNode

/-- The loop stands behind a match whose nodes were added. -/
theorem Reading.next {sha1 : List UInt8 → Digest} {list : NodeList} {record : Record}
    (fits : list.length + record.count ≤ sizeMax / sizeofNode) (fails : Bool) :
    Reading ⟨record.behindNodes, fails, record.behindNodes.isEmpty⟩ (list ++ record.nodes sha1) where
  ended empty := List.isEmpty_iff.mp empty
  room := by rwa [List.length_append, Record.length_nodes]

theorem readStep_ended (sha1 : List UInt8 → Digest) (text : List UInt8) (fails : Bool)
    (list : NodeList) (a : Alloc) :
    readStep sha1 (⟨text, fails, true⟩, list, a) = .done (some list, a) := by
  cases fails <;> rfl

theorem readStep_eof (sha1 : List UInt8 → Digest) {text : List UInt8} {fails : Bool}
    (list : NodeList) (a : Alloc)
    (found : fscanf ⟨text, fails, false⟩ = (.eof, ⟨[], fails, true⟩)) :
    readStep sha1 (⟨text, fails, false⟩, list, a) = .next (⟨[], fails, true⟩, list, a) := by
  simp only [readStep, not_ended, found, ↓reduceIte]

theorem readStep_partly (sha1 : List UInt8 → Digest) {text : List UInt8} {fails : Bool}
    (list : NodeList) (a : Alloc) {count : Nat} {file : File}
    (found : fscanf ⟨text, fails, false⟩ = (.partly count, file)) :
    readStep sha1 (⟨text, fails, false⟩, list, a) = .done (none, a) := by
  simp only [readStep, not_ended, found, ↓reduceIte]

/-- A run that returns a list has matched the whole file and added the nodes of each match. -/
theorem read_returned (sha1 : List UInt8 → Digest) {fuel : Nat} {file : File} {list out : NodeList}
    {left : Alloc} (reading : Reading file list)
    (ended : iterate (readStep sha1) fuel (file, list, []) = .done (some out, left)) :
    ∃ records, Records file.text records ∧ (∀ r ∈ records, r.Accepted) ∧
      list.length + nodeCount records ≤ sizeMax / sizeofNode ∧
      out = list ++ records.flatMap (Record.nodes sha1) := by
  induction fuel generalizing file list with
  | zero => simp [iterate] at ended
  | succ fuel ih =>
    obtain ⟨text, fails, met⟩ := file
    cases met with
    | true =>
      rw [iterate_done (readStep_ended sha1 text fails list [])] at ended
      simp only [Outcome.done.injEq, Prod.mk.injEq, Option.some.injEq] at ended
      obtain ⟨rfl, _⟩ := ended
      obtain rfl : text = [] := reading.ended rfl
      exact ⟨[], .nil rfl, by simp, reading.room, by simp⟩
    | false =>
      rcases fscanf_cases text fails with ⟨blank, found⟩ | ⟨_, found, _⟩ | ⟨record, first, found⟩
      · rw [iterate_next (readStep_eof sha1 list [] found)] at ended
        obtain ⟨records, later, _, _, rfl⟩ := ih ⟨fun _ => rfl, reading.room⟩ ended
        obtain rfl := records_nil later
        exact ⟨[], .nil blank, by simp, reading.room, by simp⟩
      · rw [iterate_done (readStep_partly sha1 list [] found)] at ended
        simp at ended
      · rcases readStep_record sha1 reading.room found with ⟨accepted, fits, next⟩ | ⟨_, b, refused⟩
        · rw [iterate_next next] at ended
          obtain ⟨records, later, all, room, rfl⟩ :=
            ih (.next fits fails) ended
          refine ⟨record :: records, .cons first later, List.forall_mem_cons.mpr ⟨accepted, all⟩,
            ?_, by simp⟩
          rw [List.length_append, Record.length_nodes] at room
          rw [nodeCount_cons]
          omega
        · rw [iterate_done refused] at ended
          simp at ended

/-- Matches that pass the checks are added one after the other up to the end of the file. -/
theorem read_returns (sha1 : List UInt8 → Digest) {text : List UInt8} {records : List Record}
    (found : Records text records) (accepted : ∀ r ∈ records, r.Accepted) (fails met : Bool)
    (list : NodeList) (reading : Reading ⟨text, fails, met⟩ list)
    (fits : list.length + nodeCount records ≤ sizeMax / sizeofNode) :
    Returns (readStep sha1) (⟨text, fails, met⟩, list, [])
      (some (list ++ records.flatMap (Record.nodes sha1)), []) := by
  induction found generalizing met list with
  | @nil text blank =>
    have last := returns_done (readStep_ended sha1 [] fails list [])
    rw [List.flatMap_nil, List.append_nil]
    cases met with
    | true => exact returns_done (readStep_ended sha1 text fails list [])
    | false =>
      rcases fscanf_cases text fails with ⟨_, found⟩ | ⟨_, _, none⟩ | ⟨record, first, _⟩
      · exact (returns_next (readStep_eof sha1 list [] found)).mpr last
      · exact absurd (.nil blank) (none [])
      · exact absurd blank first.not_blank
  | @cons text record records first later ih =>
    have unmet : met = false := by
      by_contra met
      rw [Bool.not_eq_false] at met
      have empty : text = [] := reading.ended met
      subst empty
      exact first.not_blank rfl
    subst unmet
    obtain ⟨acceptedFirst, acceptedLater⟩ := List.forall_mem_cons.mp accepted
    rw [nodeCount_cons] at fits
    rcases fscanf_cases text fails with ⟨blank, _⟩ | ⟨_, _, none⟩ | ⟨other, first', found⟩
    · exact absurd blank first.not_blank
    · exact absurd (.cons first later) (none _)
    · obtain rfl := first.unique first'
      rcases readStep_record sha1 reading.room found with ⟨_, fits', next⟩ | ⟨refused, _⟩
      · have left : (list ++ record.nodes sha1).length + nodeCount records ≤
            sizeMax / sizeofNode := by
          rw [List.length_append, Record.length_nodes]
          omega
        have rest := ih acceptedLater record.behindNodes.isEmpty (list ++ record.nodes sha1)
          (.next fits' fails) left
        rw [List.flatMap_cons, ← List.append_assoc]
        exact (returns_next next).mpr rest
      · exact absurd ⟨acceptedFirst, by omega⟩ refused

theorem Record.Matches.shorter {text : List UInt8} {record : Record}
    (found : record.Matches text) : record.behindNodes.length < text.length := by
  have ip := Scan.length_lt_of_string (by decide) found.ip
  have port := Scan.length_le_of_number found.port
  have nbNodes := Scan.length_le_of_number found.nbNodes
  omega

def remaining (s : File × NodeList × Alloc) : Nat :=
  s.1.text.length + if s.1.ended then 0 else 1

theorem readStep_next {sha1 : List UInt8 → Digest} {s s' : File × NodeList × Alloc}
    (next : readStep sha1 s = .next s') : remaining s' < remaining s := by
  obtain ⟨⟨text, fails, met⟩, list, a⟩ := s
  cases met with
  | true => simp [readStep_ended] at next
  | false =>
    rcases fscanf_cases text fails with ⟨_, found⟩ | ⟨_, found, _⟩ | ⟨record, first, found⟩
    · rw [readStep_eof sha1 list a found] at next
      obtain rfl := Step.next.inj next
      simp [remaining]
    · simp [readStep_partly sha1 list a found] at next
    · have shorter := first.shorter
      simp only [readStep, not_ended, found, ↓reduceIte] at next
      split at next
      · simp at next
      · split at next
        · simp at next
        · obtain rfl := Step.next.inj next
          simp only [remaining, Bool.false_eq_true, ↓reduceIte]
          split <;> omega

theorem readStep_ne_fault (sha1 : List UInt8 → Digest) (s : File × NodeList × Alloc) :
    readStep sha1 s ≠ .fault := by
  obtain ⟨file, list, a⟩ := s
  simp only [readStep]
  split
  · split
    · split
      · simp
      · split <;> simp
    · simp
    · simp
  · simp

theorem getNodes_eq (sha1 : List UInt8 → Digest) (file : File) (fuel : Nat) :
    getNodes sha1 (some file) fuel [] = iterate (readStep sha1) fuel (file, [], []) := rfl

theorem getNodes_returns (sha1 : List UInt8 → Digest) (text : List UInt8) (fails : Bool)
    {fuel : Nat} (enough : text.length + 1 < fuel) :
    ∃ result left, getNodes sha1 (some ⟨text, fails, false⟩) fuel [] = .done (result, left) := by
  have ends := @iterate_ends_of_decreasing _ _ (readStep sha1)
    (⟨text, fails, false⟩, [], []) remaining (fun _ _ => readStep_next) fuel enough
  have sound := @iterate_ne_fault _ _ (readStep sha1) (⟨text, fails, false⟩, [], [])
    (readStep_ne_fault sha1) fuel
  rw [getNodes_eq]
  cases ran : iterate (readStep sha1) fuel (⟨text, fails, false⟩, [], []) with
  | done result => exact ⟨result.1, result.2, rfl⟩
  | fault => exact absurd ran sound
  | outOfFuel => exact absurd ran ends

/-! Matches and words. -/

/-- A file that spells triples is matched one triple after the other, and cleanly. -/
theorem records_of_spells {words : List (List UInt8)} {triples : List Triple}
    (spelled : Spells words triples) {text : List UInt8} (cut : Scan.words text = words) :
    ∃ records, Records text records ∧ ∀ r ∈ records, r.Clean := by
  induction spelled generalizing text with
  | nil => exact ⟨[], .nil ((Scan.words_eq_nil_iff text).mp cut), by simp⟩
  | @cons t port count words triples address portNumber countNumber later ih =>
    obtain ⟨behindIp, readIp, afterIp, cut⟩ := Scan.string_of_words cut (inetPton_strlen_le address)
    obtain ⟨p, behindPort, readPort, portValue, afterPort, cut⟩ := Scan.number_of_words cut portNumber
    obtain ⟨n, behindNodes, readNodes, nodesValue, afterNodes, cut⟩ :=
      Scan.number_of_words cut countNumber
    obtain ⟨records, found, clean⟩ := ih cut
    refine ⟨⟨t.ip.bytes, behindIp, p, behindPort, n, behindNodes⟩ :: records,
      .cons ⟨readIp, readPort, readNodes⟩ found, List.forall_mem_cons.mpr ⟨?_, clean⟩⟩
    have bound := t.port.toNat_lt
    exact ⟨afterIp, t.ip.nulFree, by simp [address], afterPort, by
      simp only [portValue, maxPort]
      omega, afterNodes, by
      simp only [nodesValue]
      omega⟩

def Record.triple (r : Record) : Triple where
  ip := CString.ofMemory r.ip
  address := (inetPton (CString.ofMemory r.ip)).getD 0
  port := UInt16.ofNat r.port.toInt.toNat
  count := r.count

theorem Record.Clean.stored {r : Record} (clean : r.Clean) (small : r.count ≤ sizeMax / sizeofNode) :
    (r.triple.port.toNat : Int) = r.port.value ∧ (r.triple.count : Int) = r.nbNodes.value := by
  obtain ⟨low, high⟩ := clean.portRange
  have limit : sizeMax / sizeofNode < 2 ^ 64 - 1 := by decide
  constructor
  · rw [Record.triple, Scan.Numeral.toInt_of_small low high]
    have bound : r.port.value ≤ 65535 := high
    simp only [UInt16.toNat_ofNat']
    omega
  · exact Scan.Numeral.toNat_toUnsigned clean.nonnegative (Nat.lt_of_le_of_lt small limit)

/-- Clean matches spell the triples they say. -/
theorem spells_of_records {text : List UInt8} {records : List Record}
    (found : Records text records) (clean : ∀ r ∈ records, r.Clean)
    (small : nodeCount records ≤ sizeMax / sizeofNode) :
    Spells (Scan.words text) (records.map Record.triple) := by
  induction found with
  | nil blank =>
    rw [(Scan.words_eq_nil_iff _).mpr blank]
    exact .nil
  | @cons text record records first later ih =>
    obtain ⟨cleanFirst, cleanLater⟩ := List.forall_mem_cons.mp clean
    rw [nodeCount_cons] at small
    have rest := ih cleanLater (by omega)
    obtain ⟨portValue, countValue⟩ := cleanFirst.stored (by omega)
    obtain ⟨address, valid⟩ := Option.isSome_iff_exists.mp cleanFirst.address
    have whole : record.triple.ip.bytes = record.ip := by
      rw [Record.triple, CString.bytes_ofMemory, List.takeWhile_eq_self_iff]
      intro byte member
      refine decide_eq_true ?_
      rintro rfl
      exact cleanFirst.nulFree member
    obtain ⟨port, cutPort, portNumber⟩ := Scan.words_of_number first.port cleanFirst.port
    obtain ⟨nbNodes, cutNodes, nodesNumber⟩ := Scan.words_of_number first.nbNodes cleanFirst.nbNodes
    rw [Scan.words_of_string (by decide) first.ip cleanFirst.ip, cutPort, cutNodes, ← whole]
    exact .cons record.triple (by simp [Record.triple, valid]) (by rw [portValue]; exact portNumber)
      (by rw [countValue]; exact nodesNumber) rest

/-- The server file is read completely or rejected exactly when every file that passes the
checks of the source was read to its end, in matches that are clean. -/
theorem server_file_iff (sha1 : List UInt8 → Digest) (text : List UInt8) (fails : Bool) :
    ReadsFile sha1 text fails ↔
      ∀ records, Records text records → (∀ r ∈ records, r.Accepted) →
        nodeCount records ≤ sizeMax / sizeofNode → fails = false ∧ ∀ r ∈ records, r.Clean := by
  have start : Reading ⟨text, fails, false⟩ [] := ⟨by simp, Nat.zero_le _⟩
  constructor
  · intro reads records found accepted small
    obtain ⟨fuel, ended⟩ := read_returns sha1 found accepted fails false [] start
      (by simpa using small)
    obtain ⟨complete, triples, spelled, _⟩ := reads.whole fuel _ _ ended
    obtain ⟨others, again, clean⟩ := records_of_spells spelled rfl
    obtain rfl := found.unique again
    exact ⟨complete, clean⟩
  · intro clean
    refine ⟨fun fuel enough => getNodes_returns sha1 text fails enough, ?_⟩
    intro fuel list left ended
    rw [getNodes_eq] at ended
    obtain ⟨records, found, accepted, small, rfl⟩ := read_returned sha1 start ended
    rw [List.length_nil, Nat.zero_add] at small
    obtain ⟨complete, cleanly⟩ := clean records found accepted small
    refine ⟨complete, records.map Record.triple, spells_of_records found cleanly small, ?_⟩
    rw [List.nil_append, List.flatMap_map]
    rfl

def zeroDigest : Digest := ⟨List.replicate shaDigestLength 0, List.length_replicate⟩

/-- Reading fails behind the first server, whose node is returned as if it were the only one. -/
theorem server_file_cut_short :
    ¬ ∀ (sha1 : List UInt8 → Digest) (text : List UInt8) (fails : Bool),
      ReadsFile sha1 text fails := by
  intro reads
  have whole := (reads (fun _ => zeroDigest)
    [49, 46, 49, 46, 49, 46, 49, 32, 49, 32, 49, 10] true).whole 4
    [virtualNode (fun _ => zeroDigest) (.ofMemory [49, 46, 49, 46, 49, 46, 49]) 16843009 1 1] []
  exact absurd (whole (by decide +kernel)).1 (by decide)

end PpsDht
