import PpsDht.DumpBuffer
import PpsDht.HtableDelete

/-! The server against the map it stands for, datagram by datagram. A dump is answered by
whatever lets `pps-dump-node` print the map; all allocations succeed. -/
namespace PpsDht

open CLib Loop

/-- What a server holding this map sends for a request, and its map afterwards. -/
inductive MapTurn : FiniteMap → Request → FiniteMap → List (List UInt8) → Prop
  | alive (m : FiniteMap) : MapTurn m .alive m [[]]
  | write (m : FiniteMap) (key value : CString) :
      MapTurn m (.write key value) (Function.update m key (some value)) [[]]
  | get (m : FiniteMap) (key : CString) :
      MapTurn m (.get key) m ((m key).map CString.bytes).toList
  | dump {m : FiniteMap} {sent : List (List UInt8)} {printed : List KvPair}
      (decoded : receiveDump 0 0 sent = some printed)
      (once : (printed.map Chain.Entry.key).Nodup)
      (exact : ∀ key value, ⟨key, value⟩ ∈ printed ↔ m key = some value) : MapTurn m .dump m sent

inductive MapRun : FiniteMap → List Request → List (List (List UInt8)) → Prop
  | nil (m : FiniteMap) : MapRun m [] []
  | cons {m m' : FiniteMap} {request : Request} {sent : List (List UInt8)}
      {requests : List Request} {replies : List (List (List UInt8))}
      (turn : MapTurn m request m' sent) (rest : MapRun m' requests replies) :
      MapRun m (request :: requests) (sent :: replies)

theorem MapTurn.write_inv {m m' : FiniteMap} {key value : CString} {sent : List (List UInt8)}
    (turn : MapTurn m (.write key value) m' sent) : m' = Function.update m key (some value) := by
  cases turn
  rfl

theorem MapTurn.get_inv {m m' : FiniteMap} {key : CString} {sent : List (List UInt8)}
    (turn : MapTurn m (.get key) m' sent) : sent = ((m key).map CString.bytes).toList := by
  cases turn
  rfl

/-- The answers of the receive loop to these datagrams, from this table on. -/
def serveRun (fuel : Nat) : List (List UInt8) → Htable → Outcome (List (List (List UInt8)))
  | [], _ => .done []
  | payload :: rest, t =>
    (serve fuel t payload []).bind fun (t, sent) =>
      (serveRun fuel rest t).bind fun replies => .done (sent :: replies)

/-- A pair that a dump can print, wherever it comes. -/
def Printable (key value : CString) : Prop :=
  key ≠ CString.empty ∧ key.strlen + value.strlen + 21 ≤ maxMsgSize

/-- The request is about these keys, and stores only what a dump can print. -/
def Request.Within (keys : Set CString) : Request → Prop
  | .write key value => key ∈ keys ∧ Printable key value
  | .get key => key ∈ keys
  | _ => True

/-- The table stands for the map; its keys are among those written. -/
structure Represents (t : Htable) (m : FiniteMap) (written : List CString) : Prop where
  size : t.size = htableSize
  wellFormed : t.WellFormed
  keys : t.KeysIn {key | key ∈ written}
  binding : ∀ key, t.binding key = m key
  printable : ∀ key value, m key = some value → Printable key value

namespace Htable

theorem mem_content_iff {t : Htable} {e : KvPair} :
    e ∈ t.content ↔ ∃ index, e ∈ t.bucket index := by
  rw [content, List.mem_flatten]
  constructor
  · rintro ⟨chain, inside, member⟩
    obtain ⟨index, bound, rfl⟩ := List.mem_iff_getElem.mp inside
    exact ⟨index, by simpa [bucket, bound] using member⟩
  · rintro ⟨index, member⟩
    by_cases bound : index < t.elements.length
    · exact ⟨t.elements[index], List.getElem_mem bound, by simpa [bucket, bound] using member⟩
    · simp [bucket, bound] at member

theorem WellFormed.mem_content_iff_binding {t : Htable} (wellFormed : t.WellFormed)
    (key value : CString) : ⟨key, value⟩ ∈ t.content ↔ t.binding key = some value := by
  rw [mem_content_iff, Htable.binding, ← (wellFormed.ordered _).mem_iff_binding]
  constructor
  · rintro ⟨index, member⟩
    rwa [wellFormed.placed index _ member]
  · exact fun member => ⟨_, member⟩

end Htable

theorem represents_empty : Represents (Htable.empty htableSize) FiniteMap.empty [] where
  size := Htable.size_empty _
  wellFormed := Htable.wellFormed_empty (by decide)
  keys := Htable.keysIn_empty _ _
  binding := Htable.binding_empty htableSize
  printable key value found := by simp [FiniteMap.empty] at found

section Represents

variable {t : Htable} {m : FiniteMap} {written : List CString} {key value : CString}

theorem Represents.mem_content_iff (represents : Represents t m written) :
    ⟨key, value⟩ ∈ t.content ↔ m key = some value := by
  rw [represents.wellFormed.mem_content_iff_binding, represents.binding]

theorem Represents.length_content (represents : Represents t m written) :
    t.content.length ≤ written.length := by
  rw [← List.length_map (f := Chain.Entry.key)]
  refine (represents.wellFormed.nodup.subperm fun key member => ?_).length_le
  obtain ⟨e, inside, rfl⟩ := List.mem_map.mp member
  obtain ⟨index, here⟩ := Htable.mem_content_iff.mp inside
  exact represents.keys index e here

/-- Among keys none of which is a proper prefix of another in its bucket, a search finds
exactly its key. -/
theorem Represents.unshadowed {keys : Set CString} (represents : Represents t m written)
    (known : ∀ key ∈ written, key ∈ keys)
    (apart : ∀ k ∈ keys, ∀ k' ∈ keys, k < k' →
      hashFunction k htableSize ≠ hashFunction k' htableSize)
    (member : key ∈ keys) : t.Unshadowed key := by
  refine Htable.unshadowed_of_keysIn represents.wellFormed.placed
    (represents.keys.mono fun k stored => known k stored) ?_
  rw [represents.size]
  exact apart key member

theorem Represents.put (represents : Represents t m written) (clear : t.Unshadowed key)
    (printable : Printable key value) :
    Represents (t.put key value) (Function.update m key (some value)) (key :: written) where
  size := by rw [Htable.size_put, represents.size]
  wellFormed := represents.wellFormed.put key value
  keys := by
    refine Htable.KeysIn.put (fun index e member => ?_) represents.wellFormed.positive value
      List.mem_cons_self
    exact List.mem_cons_of_mem _ (represents.keys index e member)
  binding other := by
    rw [Htable.binding_put represents.wellFormed.positive clear, represents.binding,
      Function.update_apply]
  printable other stored found := by
    by_cases same : other = key
    · subst same
      rw [Function.update_self] at found
      exact Option.some.inj found ▸ printable
    · rw [Function.update_of_ne same] at found
      exact represents.printable other stored found

theorem Represents.dumpable (represents : Represents t m written)
    (few : written.length < maxAllocated) : Dumpable t.content := by
  have listed := represents.length_content.trans_lt few
  have header : (dumpHeader t.content.length).length ≤ 19 := by
    have digits : (Decimal.print t.content.length).length ≤ 18 := by
      apply Decimal.length_print_le (by decide)
      rw [maxAllocated] at listed
      omega
    rw [dumpHeader, List.length_append, List.length_singleton]
    omega
  have each (pair : KvPair) (member : pair ∈ t.content) : Printable pair.key pair.value :=
    represents.printable _ _ (represents.mem_content_iff.mp member)
  refine ⟨listed, fun pair member => (each pair member).1, fun pair member => ?_,
    fun pair member => ?_⟩
  · have room := (each pair member).2
    rw [pairLength]
    omega
  · have room := (each pair (List.mem_of_mem_head? member)).2
    rw [pairLength]
    omega

theorem Represents.turn {keys : Set CString} {payload : List UInt8} {request : Request}
    (represents : Represents t m written) (known : ∀ key ∈ written, key ∈ keys)
    (apart : ∀ k ∈ keys, ∀ k' ∈ keys, k < k' →
      hashFunction k htableSize ≠ hashFunction k' htableSize)
    (few : written.length < maxAllocated) (read : receiveRequest payload = some request)
    (within : request.Within keys) :
    ∃ bound t' m' sent more, (∀ fuel, bound ≤ fuel → serve fuel t payload [] = .done (t', sent)) ∧
      MapTurn m request m' sent ∧ Represents t' m' (more ++ written) ∧ more.length ≤ 1 ∧
      ∀ key ∈ more, key ∈ keys := by
  cases request with
  | alive =>
    refine ⟨0, t, m, [[]], [], fun fuel _ => ?_, .alive m, represents, by simp, by simp⟩
    simp only [serve, read]
  | dump =>
    obtain ⟨bound, error, sent, printed, served, decoded, same⟩ :=
      (represents.dumpable few).dumpsExactly
    refine ⟨bound, t, m, sent, [], fun fuel enough => ?_, .dump decoded ?_ fun key value => ?_,
      represents, by simp, by simp⟩
    · simp only [serve, read, served fuel enough, Outcome.bind]
    · exact (same.map _).nodup_iff.mpr represents.wellFormed.nodup
    · rw [same.mem_iff, represents.mem_content_iff]
  | write key value =>
    obtain ⟨member, printable⟩ := within
    have clear := represents.unshadowed known apart member
    refine ⟨0, t.put key value, _, [[]], [key], fun fuel _ => ?_, .write m key value,
      represents.put clear printable, by simp, by simpa using member⟩
    simp only [serve, read, serveWriteRequest, addHtableValue_nil]
  | get key =>
    have found : t.lookup key = m key :=
      (Htable.lookup_eq_binding (represents.unshadowed known apart within)).trans
        (represents.binding key)
    refine ⟨0, t, m, _, [], fun fuel _ => ?_, .get m key, represents, by simp, by simp⟩
    simp only [serve, read, serveGetRequest, getHtableValue_nil, found]
    cases m key <;> rfl

end Represents

theorem serveRun_refines {keys : Set CString} (apart : ∀ k ∈ keys, ∀ k' ∈ keys, k < k' →
      hashFunction k htableSize ≠ hashFunction k' htableSize)
    {t : Htable} {m : FiniteMap} {written : List CString} (represents : Represents t m written)
    (known : ∀ key ∈ written, key ∈ keys) {payloads : List (List UInt8)} {requests : List Request}
    (read : payloads.map receiveRequest = requests.map some)
    (within : ∀ request ∈ requests, request.Within keys)
    (few : written.length + payloads.length ≤ maxAllocated) :
    ∃ bound replies, (∀ fuel, bound ≤ fuel → serveRun fuel payloads t = .done replies) ∧
      MapRun m requests replies := by
  induction payloads generalizing t m written requests with
  | nil =>
    obtain rfl := List.map_eq_nil_iff.mp read.symm
    exact ⟨0, [], fun _ _ => rfl, .nil m⟩
  | cons payload payloads ih =>
    cases requests with
    | nil => simp at read
    | cons request requests =>
      obtain ⟨first, later⟩ := List.cons.inj read
      rw [List.length_cons] at few
      obtain ⟨bound, t', m', sent, more, served, turn, represents', grown, known'⟩ :=
        represents.turn known apart (by omega) first (within request List.mem_cons_self)
      obtain ⟨bound', replies, served', rest⟩ := ih represents'
        (fun key member => (List.mem_append.mp member).elim (known' key) (known key)) later
        (fun request member => within request (List.mem_cons_of_mem _ member))
        (by rw [List.length_append]; omega)
      refine ⟨max bound bound', sent :: replies, fun fuel enough => ?_, .cons turn rest⟩
      simp only [serveRun, served fuel (by omega), served' fuel (by omega), Outcome.bind]

def RefinesMap (payloads : List (List UInt8)) (requests : List Request) : Prop :=
  ∃ bound replies,
    (∀ fuel, bound ≤ fuel → serveRun fuel payloads (Htable.empty htableSize) = .done replies) ∧
      MapRun FiniteMap.empty requests replies

/-- The longer key is stored, and the shorter one, never written, is answered. -/
theorem not_refinesMap_of_shadowed {key longer : CString} (below : key < longer)
    (same : hashFunction key htableSize = hashFunction longer htableSize)
    (named : key ≠ CString.empty) (short : key.strlen ≤ maxMsgElemSize)
    (short' : longer.strlen ≤ maxMsgElemSize) :
    ¬ RefinesMap [putMessage longer CString.empty, getMessage key]
      [.write longer CString.empty, .get key] := by
  rintro ⟨bound, replies, served, refines⟩
  have room : longer.strlen + CString.empty.strlen + 1 < maxMsgSize := by
    rw [CString.strlen_eq_zero_iff.mpr rfl, maxMsgSize]
    rw [maxMsgElemSize] at short' ⊢
    omega
  have some : longer ≠ CString.empty := by
    rintro rfl
    exact named (CString.bytes_eq_nil_iff.mp (List.prefix_nil.mp below.le))
  have write := receiveRequest_putMessage short'
    (show CString.empty.strlen ≤ maxMsgElemSize by decide)
  have read := receiveRequest_getMessage short
  rw [if_neg fun both => some both.1, if_pos room] at write
  rw [if_neg named] at read
  have found : ((Htable.empty htableSize).put longer CString.empty).lookup key =
      Option.some CString.empty := by
    have positive : 0 < (Htable.empty htableSize).size := by
      rw [Htable.size_empty]
      decide
    rw [Htable.lookup, Htable.size_put, Htable.bucket_put _ positive, Htable.size_empty,
      if_pos same, Htable.bucket_empty, Chain.put_of_miss _ _ _ (by simp)]
    simp [Chain.lookup, below.le]
  have ran := served bound (le_refl _)
  simp only [serveRun, serve, write, read, serveWriteRequest, serveGetRequest, addHtableValue_nil,
    getHtableValue_nil, found, Outcome.bind, Outcome.done.injEq] at ran
  subst ran
  cases refines with
  | cons turn rest =>
    cases rest with
    | cons turn' rest =>
      have answer := turn'.get_inv
      rw [turn.write_inv, Function.update_of_ne below.ne] at answer
      simp [FiniteMap.empty] at answer

/-- The server answers every run of requests about these keys as a map does, dumps included,
exactly when no key is a proper prefix of another one in its bucket. -/
theorem server_refines_map_iff (keys : Set CString)
    (named : ∀ key ∈ keys, key ≠ CString.empty ∧ key.strlen ≤ maxMsgElemSize) :
    (∀ payloads requests, payloads.map receiveRequest = requests.map some →
        (∀ request ∈ requests, request.Within keys) → payloads.length ≤ maxAllocated →
        RefinesMap payloads requests) ↔
      ∀ k ∈ keys, ∀ k' ∈ keys, k < k' →
        hashFunction k htableSize ≠ hashFunction k' htableSize := by
  constructor
  · intro refines k member k' member' below same
    obtain ⟨some, short⟩ := named k member
    obtain ⟨some', short'⟩ := named k' member'
    have room : k'.strlen + CString.empty.strlen + 21 ≤ maxMsgSize := by
      rw [CString.strlen_eq_zero_iff.mpr rfl, maxMsgSize]
      rw [maxMsgElemSize] at short' ⊢
      omega
    have two : [putMessage k' CString.empty, getMessage k].length ≤ maxAllocated :=
      show 2 ≤ maxAllocated by decide
    refine not_refinesMap_of_shadowed below same some short short' (refines _ _ ?_ ?_ two)
    · have read := receiveRequest_getMessage short
      have write := receiveRequest_putMessage short'
        (show CString.empty.strlen ≤ maxMsgElemSize by decide)
      rw [if_neg some] at read
      rw [if_neg fun both => some' both.1, if_pos (by omega)] at write
      simp only [List.map_cons, List.map_nil, read, write]
    · simp only [List.forall_mem_cons, Request.Within]
      exact ⟨⟨member', some', room⟩, member, fun _ none => absurd none List.not_mem_nil⟩
  · intro apart payloads requests read within few
    exact serveRun_refines apart represents_empty (by simp) read within (by simpa using few)

/-- Two keys of one bucket are written, listed and read. -/
theorem server_refines_map_iff_two :
    RefinesMap [[98, 0, 49], [113, 0, 50], dumpNodeMessage, [98], [113]]
      [.write (.ofMemory [98]) (.ofMemory [49]), .write (.ofMemory [113]) (.ofMemory [50]), .dump,
        .get (.ofMemory [98]), .get (.ofMemory [113])] := by
  have keys : ∀ key ∈ [CString.ofMemory [98], .ofMemory [113]],
      key ≠ CString.empty ∧ key.strlen ≤ maxMsgElemSize := by decide
  have apart : ∀ k ∈ [CString.ofMemory [98], .ofMemory [113]],
      ∀ k' ∈ [CString.ofMemory [98], .ofMemory [113]], k < k' →
        hashFunction k htableSize ≠ hashFunction k' htableSize := by decide +kernel
  refine (server_refines_map_iff {key | key ∈ [CString.ofMemory [98], .ofMemory [113]]} keys).mpr
    apart _ _ (by decide +kernel) ?_ (show 5 ≤ maxAllocated by decide)
  have printable : Printable (.ofMemory [98]) (.ofMemory [49]) := by
    constructor <;> decide
  have printable' : Printable (.ofMemory [113]) (.ofMemory [50]) := by
    constructor <;> decide
  simp [Request.Within, printable, printable']

end PpsDht
