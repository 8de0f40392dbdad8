import PpsDht.AddressText
import PpsDht.ClientPlacement
import PpsDht.Server

/-! The start of a server, from what is typed to its receive loop: `main` of
`launch-server.c`. The clients that know the server are those whose server file says what was
typed. -/
namespace PpsDht

open CLib Loop

/-- What start-up meets: whether there is a socket, which addresses it can be bound to, and
the allocations. -/
structure LaunchEnv where
  socket : Bool
  binds : SockAddr → Bool
  alloc : Alloc

inductive Launch where
  | failed (error : ErrorCode)
  | serving (addr : SockAddr) (table : Htable)

def ipSize : Nat := maxIpSize + 1

/-- What `%u` leaves in an `int`. -/
def typedPort (number : Scan.Numeral) : Int := (number.toUnsigned.toNat : Int).bmod (2 ^ 32)

def bindServer (binds : SockAddr → Bool) (ip : CString) (port : UInt16) : ErrorCode :=
  match getServerAddr ip port with
  | (.none, some addr) => if binds addr then .none else .network
  | (error, _) => error

def startServer (env : LaunchEnv) (ip : CString) (port : UInt16) : Launch :=
  if env.socket then
    match getServerAddr ip port with
    | (.none, some addr) =>
      match bindServer env.binds ip port with
      | .none =>
        match constructHtable htableSize env.alloc with
        | (some table, _) => .serving addr table
        | (none, _) => .failed .nomem
      | error => .failed error
    | (error, _) => .failed error
  else .failed .network

/-- `scanf("%s %u", ip_addr, &port)` has no width for the word, so one that does not fit in
`ip_addr` is written past its end. -/
def launchServer (stdin : List UInt8) (env : LaunchEnv) : Outcome Launch :=
  match Scan.string stdin.length stdin with
  | none => .done (.failed .notFound)
  | some (word, rest) =>
    if ipSize ≤ word.length then .fault
    else
      match Scan.number rest with
      | none => .done (.failed .notFound)
      | some (number, _) =>
        let port := typedPort number
        if port < 0 ∨ maxPort < port then .done (.failed .badParameter)
        else .done (startServer env (CString.ofMemory word) (UInt16.ofNat port.toNat))

/-- The first word typed fits and is this address as far as it has no NUL, and the second
one begins with a number whose lower 32 bits are this port. -/
def Typed (stdin : List UInt8) (ip : CString) (port : UInt16) : Prop :=
  ∃ word next more number, Scan.words stdin = word :: next :: more ∧ word.length < ipSize ∧
    CString.ofMemory word = ip ∧ Scan.Begins next number ∧ number.magnitude < 2 ^ 64 ∧
    number.value % 2 ^ 32 = port.toNat

theorem toUnsigned_of_large {number : Scan.Numeral} (large : ¬ number.magnitude < 2 ^ 64) :
    number.toUnsigned.toNat = 2 ^ 64 - 1 := by
  rw [Scan.Numeral.toUnsigned, Decimal.negate, Decimal.saturate, if_neg large, if_neg large, ite_self]
  rfl

theorem toUnsigned_of_small {number : Scan.Numeral} (small : number.magnitude < 2 ^ 64) :
    (number.toUnsigned.toNat : Int) % 2 ^ 32 = number.value % 2 ^ 32 := by
  obtain ⟨negative, magnitude⟩ := number
  replace small : magnitude < 2 ^ 64 := small
  rw [Scan.Numeral.toUnsigned, Scan.Numeral.value, Decimal.negate, Decimal.saturate, if_pos small,
    if_pos small]
  have whole : (UInt64.ofNat magnitude).toNat = magnitude := by
    rw [UInt64.toNat_ofNat', Nat.mod_eq_of_lt small]
  cases negative with
  | false => simp only [Bool.false_eq_true, ↓reduceIte, whole]
  | true =>
    have zero : UInt64.toNat 0 = 0 := rfl
    simp only [↓reduceIte, UInt64.toNat_sub, whole, zero]
    omega

/-- A number beyond 64 bits is stored as -1, any other one as its lower 32 bits. -/
theorem typedPort_eq_iff (number : Scan.Numeral) (port : UInt16) :
    typedPort number = port.toNat ↔
      number.magnitude < 2 ^ 64 ∧ number.value % 2 ^ 32 = port.toNat := by
  have bound := port.toNat_lt
  rcases Nat.lt_or_ge number.magnitude (2 ^ 64) with small | large
  · have lower := toUnsigned_of_small small
    unfold typedPort
    simp only [Int.bmod_def]
    omega
  · have full := toUnsigned_of_large (Nat.not_lt.mpr large)
    unfold typedPort
    simp only [Int.bmod_def]
    omega

example : typedPort ⟨false, 4295007617⟩ = 40321 := by decide

theorem string_whole {stdin word : List UInt8} {more : List (List UInt8)}
    (cut : Scan.words stdin = word :: more) :
    ∃ rest, Scan.string stdin.length stdin = some (word, rest) ∧ Scan.words rest = more := by
  obtain ⟨rest, whole, solid, separated, later⟩ := (Scan.words_eq_cons_iff ..).mp cut
  have inside := (List.dropWhile_suffix Decimal.isSpace (l := stdin)).length_le
  rw [whole, List.length_append] at inside
  exact ⟨rest, Scan.string_word whole solid separated (Nat.le_of_add_right_le inside), later⟩

theorem typed_iff_scanned (stdin : List UInt8) (ip : CString) (port : UInt16) :
    Typed stdin ip port ↔ ∃ word rest number behind,
      Scan.string stdin.length stdin = some (word, rest) ∧ word.length < ipSize ∧
        Scan.number rest = some (number, behind) ∧ CString.ofMemory word = ip ∧
        typedPort number = port.toNat := by
  constructor
  · rintro ⟨word, next, more, number, cut, short, address, begins, stored⟩
    obtain ⟨rest, first, later⟩ := string_whole cut
    obtain ⟨behind, second⟩ := (Scan.number_iff_begins rest number).mpr ⟨next, more, later, begins⟩
    exact ⟨word, rest, number, behind, first, short, second, address,
      (typedPort_eq_iff ..).mpr stored⟩
  · rintro ⟨word, rest, number, behind, first, short, second, address, stored⟩
    obtain ⟨next, more, later, begins⟩ := (Scan.number_iff_begins rest number).mp ⟨behind, second⟩
    cases cut : Scan.words stdin with
    | nil =>
      have blank := (Scan.words_eq_nil_iff stdin).mp cut
      simp [(Scan.string_eq_none_iff ..).mpr blank] at first
    | cons head tail =>
      obtain ⟨rest', first', later'⟩ := string_whole cut
      obtain ⟨rfl, rfl⟩ := Prod.mk.inj (Option.some.inj (first'.symm.trans first))
      obtain rfl := later'.symm.trans later
      exact ⟨head, next, more, number, cut, short, address, begins, (typedPort_eq_iff ..).mp stored⟩

theorem Typed.unique {stdin : List UInt8} {ip ip' : CString} {port port' : UInt16}
    (typed : Typed stdin ip port) (again : Typed stdin ip' port') : ip = ip' ∧ port = port' := by
  obtain ⟨_, _, _, _, first, _, second, rfl, value⟩ := (typed_iff_scanned ..).mp typed
  obtain ⟨_, _, _, _, first', _, second', rfl, value'⟩ := (typed_iff_scanned ..).mp again
  obtain ⟨rfl, rfl⟩ := Prod.mk.inj (Option.some.inj (first.symm.trans first'))
  obtain ⟨rfl, _⟩ := Prod.mk.inj (Option.some.inj (second.symm.trans second'))
  exact ⟨rfl, UInt16.toNat_inj.mp (Int.ofNat_inj.mp (value.symm.trans value'))⟩

theorem typed_of_words {stdin port : List UInt8} {more : List (List UInt8)} {t : Triple}
    (cut : Scan.words stdin = t.ip.bytes :: port :: more) (valid : inetPton t.ip = some t.address)
    (number : Scan.integer port = some (t.port.toNat : Int)) : Typed stdin t.ip t.port := by
  obtain ⟨rest, whole, solid, separated, later⟩ := (Scan.words_eq_cons_iff ..).mp cut
  obtain ⟨_, _, word, _⟩ := (Scan.words_eq_cons_iff ..).mp later
  obtain ⟨n, spelled, value⟩ := (Scan.integer_eq_some_iff word _).mp number
  have short : t.ip.bytes.length ≤ 15 := inetPton_strlen_le valid
  have bound := t.port.toNat_lt
  have small : n.magnitude < 2 ^ 64 := by
    have size : n.magnitude = n.value.natAbs := by
      rw [Scan.Numeral.value]
      split <;> simp
    omega
  exact ⟨_, port, more, n, cut, Nat.lt_succ_of_le short, CString.ofMemory_bytes t.ip,
    ⟨port, [], (List.append_nil port).symm, spelled, by simp⟩, small, by omega⟩

theorem bindServer_eq_none_iff {binds : SockAddr → Bool} {ip : CString} {port : UInt16} :
    bindServer binds ip port = .none ↔
      ∃ address, inetPton ip = some address ∧ binds ⟨htons port, address⟩ = true := by
  rw [bindServer, getServerAddr]
  cases inetPton ip with
  | none => simp
  | some address => by_cases bound : binds ⟨htons port, address⟩ = true <;> simp [bound]

theorem startServer_serving_iff {env : LaunchEnv} {ip : CString} {port : UInt16}
    {addr : SockAddr} {table : Htable} :
    startServer env ip port = .serving addr table ↔
      env.socket = true ∧ inetPton ip = some addr.sinAddr ∧ addr.sinPort = htons port ∧
        env.binds addr = true ∧ (constructHtable htableSize env.alloc).1 = some table := by
  rw [startServer]
  by_cases opened : env.socket = true
  · rw [if_pos opened, getServerAddr]
    cases valid : inetPton ip with
    | none => simp
    | some address =>
      have refused (unbound : ¬ env.binds ⟨htons port, address⟩ = true) :
          bindServer env.binds ip port = .network := by
        simp [bindServer, getServerAddr, valid, unbound]
      by_cases bound : env.binds ⟨htons port, address⟩ = true
      · have bind := bindServer_eq_none_iff.mpr ⟨address, valid, bound⟩
        obtain ⟨sinPort, sinAddr⟩ := addr
        rcases constructHtable htableSize env.alloc with ⟨_ | table', left⟩
        · simp [bind]
        · simp only [bind, Launch.serving.injEq, SockAddr.mk.injEq, opened, Option.some.injEq,
            true_and]
          constructor
          · rintro ⟨⟨rfl, rfl⟩, rfl⟩
            exact ⟨rfl, rfl, bound, rfl⟩
          · rintro ⟨rfl, rfl, _, rfl⟩
            exact ⟨⟨rfl, rfl⟩, rfl⟩
      · obtain ⟨sinPort, sinAddr⟩ := addr
        simp only [refused bound, reduceCtorEq, false_iff, Option.some.injEq]
        rintro ⟨_, rfl, rfl, bind, _⟩
        exact bound bind
  · rw [if_neg opened]
    simp [opened]

/-- Nothing is typed behind the port that a server would look at. -/
theorem launchServer_typed {stdin : List UInt8} {ip : CString} {port : UInt16}
    (typed : Typed stdin ip port) (env : LaunchEnv) :
    launchServer stdin env = .done (startServer env ip port) := by
  obtain ⟨word, rest, number, behind, first, fits, second, rfl, value⟩ :=
    (typed_iff_scanned ..).mp typed
  have range : ¬ ((port.toNat : Int) < 0 ∨ maxPort < (port.toNat : Int)) := by
    have := port.toNat_lt
    rw [maxPort]
    omega
  simp only [launchServer, first, if_neg (Nat.not_le.mpr fits), second, value, if_neg range,
    Int.toNat_natCast, UInt16.ofNat_toNat]

/-- A server starts with what was typed or not at all. -/
theorem launchServer_cases (stdin : List UInt8) (env : LaunchEnv) :
    (∃ ip port, Typed stdin ip port) ∨ launchServer stdin env = .fault ∨
      ∃ error, launchServer stdin env = .done (.failed error) := by
  rcases first : Scan.string stdin.length stdin with _ | ⟨word, rest⟩
  · exact .inr (.inr ⟨.notFound, by simp only [launchServer, first]⟩)
  by_cases long : ipSize ≤ word.length
  · exact .inr (.inl (by simp only [launchServer, first, if_pos long]))
  rcases second : Scan.number rest with _ | ⟨number, behind⟩
  · exact .inr (.inr ⟨.notFound, by simp only [launchServer, first, if_neg long, second]⟩)
  by_cases range : typedPort number < 0 ∨ maxPort < typedPort number
  · exact .inr (.inr ⟨.badParameter, by
      simp only [launchServer, first, if_neg long, second, if_pos range]⟩)
  · refine .inl ⟨_, UInt16.ofNat (typedPort number).toNat, (typed_iff_scanned ..).mpr
      ⟨word, rest, number, behind, first, Nat.not_le.mp long, second, rfl, ?_⟩⟩
    rw [maxPort] at range
    rw [UInt16.toNat_ofNat']
    omega

theorem launch_serving_iff (stdin : List UInt8) (env : LaunchEnv) (addr : SockAddr)
    (table : Htable) :
    launchServer stdin env = .done (.serving addr table) ↔
      ∃ ip port, Typed stdin ip port ∧ inetPton ip = some addr.sinAddr ∧
        addr.sinPort = htons port ∧ env.socket = true ∧ env.binds addr = true ∧
        (constructHtable htableSize env.alloc).1 = some table := by
  constructor
  · intro launched
    rcases launchServer_cases stdin env with ⟨ip, port, typed⟩ | fault | ⟨error, failed⟩
    · rw [launchServer_typed typed, Outcome.done.injEq] at launched
      obtain ⟨opened, valid, sinPort, bound, built⟩ := startServer_serving_iff.mp launched
      exact ⟨ip, port, typed, valid, sinPort, opened, bound, built⟩
    · rw [fault] at launched
      contradiction
    · rw [failed] at launched
      simp at launched
  · rintro ⟨ip, port, typed, valid, sinPort, opened, bound, built⟩
    rw [launchServer_typed typed,
      startServer_serving_iff.mpr ⟨opened, valid, sinPort, bound, built⟩]

theorem launch_fault_iff (stdin : List UInt8) (env : LaunchEnv) :
    launchServer stdin env = .fault ↔
      ∃ word more, Scan.words stdin = word :: more ∧ ipSize ≤ word.length := by
  constructor
  · intro fault
    cases cut : Scan.words stdin with
    | nil =>
      have blank := (Scan.words_eq_nil_iff stdin).mp cut
      simp [launchServer, (Scan.string_eq_none_iff ..).mpr blank] at fault
    | cons word more =>
      obtain ⟨rest, first, _⟩ := string_whole cut
      refine ⟨word, more, rfl, ?_⟩
      by_contra short
      simp only [launchServer, first, if_neg short] at fault
      split at fault
      · contradiction
      · split at fault <;> contradiction
  · rintro ⟨word, more, cut, long⟩
    obtain ⟨rest, first, _⟩ := string_whole cut
    simp only [launchServer, first, if_pos long]

theorem constructHtable_some_iff {size : Nat} {a : Alloc} {table : Htable} :
    (constructHtable size a).1 = some table ↔
      table = Htable.empty size ∧ ∀ ok ∈ a.take 2, ok = true := by
  rcases a with _ | ⟨_ | _, _ | ⟨_ | _, rest⟩⟩ <;> simp [constructHtable, malloc, eq_comm]

/-- What was typed decides how a server starts: a first word of 16 bytes or more is written
past the end of `ip_addr`, and the receive loop is reached exactly with a dotted address, a
number whose lower 32 bits are a port, and a socket, a binding and a table. -/
theorem launch_decided (stdin : List UInt8) (env : LaunchEnv) :
    (launchServer stdin env = .fault ↔
      ∃ word more, Scan.words stdin = word :: more ∧ ipSize ≤ word.length) ∧
    ∀ addr table, launchServer stdin env = .done (.serving addr table) ↔
      ∃ ip port, Typed stdin ip port ∧ ip.bytes = inetNtop addr.sinAddr ∧
        addr.sinPort = htons port ∧ env.socket = true ∧ env.binds addr = true ∧
        table = Htable.empty htableSize ∧ ∀ ok ∈ env.alloc.take 2, ok = true := by
  refine ⟨launch_fault_iff stdin env, fun addr table => ?_⟩
  simp only [launch_serving_iff, inetPton_eq_some_iff, constructHtable_some_iff]

/-! The server file of the clients. -/

theorem htons_injective : Function.Injective htons :=
  Function.LeftInverse.injective ntohs_htons

theorem mem_nodes_iff {sha1 : List UInt8 → Digest} {triples : List Triple} {addr : SockAddr} :
    (∃ node ∈ triples.flatMap (Triple.nodes sha1), node.addr = addr) ↔
      ∃ t ∈ triples, 0 < t.count ∧ t.addr = addr := by
  constructor
  · rintro ⟨node, member, rfl⟩
    obtain ⟨t, listed, member⟩ := List.mem_flatMap.mp member
    obtain ⟨nodeId, within, rfl⟩ := List.mem_map.mp member
    exact ⟨t, listed, Nat.pos_of_ne_zero (by rintro zero; simp [zero] at within), rfl⟩
  · rintro ⟨t, listed, some, rfl⟩
    refine ⟨_, List.mem_flatMap.mpr ⟨t, listed, List.mem_map.mpr ⟨1, ?_, rfl⟩⟩, rfl⟩
    rw [List.mem_range'_1]
    omega

/-- A client knows the server exactly when a line of its file, with at least one node, says
what was typed. -/
theorem launched_server_known_iff {sha1 : List UInt8 → Digest} {text : List UInt8}
    {triples : List Triple} (spelled : Spells (Scan.words text) triples) {client : Client}
    (started : StartedWith sha1 text client) {stdin : List UInt8} {env : LaunchEnv}
    {addr : SockAddr} {table : Htable}
    (launched : launchServer stdin env = .done (.serving addr table)) :
    (∃ node ∈ client.server, node.addr = addr) ↔
      ∃ t ∈ triples, 0 < t.count ∧ Typed stdin t.ip t.port := by
  obtain ⟨ip, port, typed, valid, sinPort, _⟩ := (launch_serving_iff ..).mp launched
  have members (node : Node) := (started.ringInit spelled).perm.mem_iff (a := node)
  simp only [members, mem_nodes_iff]
  refine exists_congr fun t => and_congr_right fun listed => and_congr_right fun _ => ?_
  have address := (inetPton_eq_some_iff ..).mp (spelled.address t listed)
  constructor
  · rintro rfl
    have same := address.trans ((inetPton_eq_some_iff ..).mp valid).symm
    rwa [CString.ext same, htons_injective sinPort]
  · intro again
    obtain ⟨rfl, rfl⟩ := typed.unique again
    have same := Option.some.inj (valid.symm.trans (spelled.address t listed))
    rw [Triple.addr, ← sinPort, ← same]

theorem launched_server_known_two :
    (∃ node ∈ nodesOneTwo, node.addr = (triple 2).addr) ↔
      ∃ t ∈ [triple 1, triple 2], 0 < t.count ∧
        Typed [49, 46, 49, 46, 49, 46, 49, 32, 50, 10] t.ip t.port := by
  have typed : Typed [49, 46, 49, 46, 49, 46, 49, 32, 50, 10] (triple 2).ip (triple 2).port :=
    @typed_of_words _ [50] [] (triple 2) (by decide +kernel) rfl (by decide)
  have launched : launchServer [49, 46, 49, 46, 49, 46, 49, 32, 50, 10]
      ⟨true, fun _ => true, []⟩ = .done (.serving (triple 2).addr (Htable.empty htableSize)) :=
    (launch_serving_iff ..).mpr ⟨_, _, typed, rfl, rfl, rfl, rfl, rfl⟩
  exact launched_server_known_iff spelled_oneTwo started_oneTwo launched

end PpsDht
