import Zebrafish.Lib.Memory
import Zebrafish.Lib.Net
import Zebrafish.Dns.Message

/-!
# Zebrafish.Dns.Nss

The name service switch module (`nss.rs`): `gethostbyname_r` packs a host
entry into a buffer of its caller.

```
| hostname | 0 | octets of each address | pad | pointer to each | null | null |
```

The writes are kept in source order, at absolute addresses, so that what the
caller reads afterwards is a `Memory.load`.  The size check adds up the parts
but not the padding in front of the pointers; `packed_iff` says which buffers
that leaves too short.
-/

namespace Zebrafish.Dns.Nss

open Memory Net

/-! ## the lookup -/

inductive NssStatus
  | tryAgain
  | unavail
  | notFound
  | success
deriving DecidableEq

def AF_INET : Int := 2
def AF_INET6 : Int := 10

def ENOENT : Int := 2
def ERANGE : Int := 34

/-- The record types asked for. -/
inductive RecordType
  | A
  | AAAA
deriving DecidableEq

/-- The record data of an answer. -/
inductive RData
  | A (ip : Ipv4Addr)
  | AAAA (ip : Ipv6Addr)
  | other

/-- What a lookup asks the local server and gets back: the record data of the
decoded response, or nothing when a step before that failed. -/
abbrev Exchange := Bytes → RecordType → Option (List RData)

/-- The address in an answer, when it is of the type asked for. -/
def RData.addr (recordType : RecordType) : RData → Option IpAddr
  | .A ip => if recordType = .A then some (.v4 ip) else none
  | .AAAA ip => if recordType = .AAAA then some (.v6 ip) else none
  | .other => none

/-- Perform a DNS query to the local server. -/
def queryLocalDns (exchange : Exchange) (name : Bytes) (recordType : RecordType) :
    Option (List IpAddr) := do
  let answers ← exchange name recordType
  let addrs := answers.filterMap (RData.addr recordType)
  if addrs.isEmpty then none else some addrs

/-! ## the buffer -/

/-- `size_of` and `align_of` a pointer. -/
def ptrSize : Nat := 8

/-- Memory of the caller, `len` bytes from `start` on. -/
structure Buffer where
  start : Nat
  len : Nat
  fits : start + len ≤ 2 ^ 64

structure Hostent where
  hName : Nat
  hAliases : Nat
  hAddrtype : Int
  hLength : Nat
  hAddrList : Nat
deriving DecidableEq

def addrSize (af : Int) : Nat := if af = AF_INET then 4 else 16

/-- The space the size check asks for: the name, the addresses, the pointers
to them with a null, and the alias null. -/
def needed (hostname : Bytes) (af : Int) (addrs : List IpAddr) : Nat :=
  hostname.length + 1 + addrSize af * addrs.length + (addrs.length + 1) * ptrSize + ptrSize

/-- `(offset + align - 1) & !(align - 1)`, on `usize`. -/
def alignUp (offset align : Nat) : Nat :=
  (offset + align - 1) &&& (2 ^ 64 - 1 - (align - 1))

/-- Copy the octets of each address, from `offset` on. -/
def putAddrs (buf : Nat) : Nat → List IpAddr → List Write × Nat
  | offset, [] => ([], offset)
  | offset, .v4 ip :: addrs =>
      let (writes, stop) := putAddrs buf (offset + 4) addrs
      (⟨buf + offset, ip.octets⟩ :: writes, stop)
  | offset, .v6 ip :: addrs =>
      let (writes, stop) := putAddrs buf (offset + 16) addrs
      (⟨buf + offset, ip.octets⟩ :: writes, stop)

/-- Write the pointers to `n` addresses of `size` bytes each, from `list` on. -/
def putPointers (list first size n : Nat) : List Write :=
  (List.range n).map fun i => ⟨list + i * ptrSize, le64 (first + i * size)⟩

/-- Everything written once the size check has passed, and the host entry that
points at it. -/
def fill (buf : Nat) (hostname : Bytes) (af : Int) (addrs : List IpAddr) :
    List Write × Hostent :=
  let nameWrites := [⟨buf, hostname⟩, ⟨buf + hostname.length, [0]⟩]
  let addrDataStart := hostname.length + 1
  let (addrWrites, stop) := putAddrs buf addrDataStart addrs
  let listOffset := alignUp stop ptrSize
  let hAddrList := buf + listOffset
  let pointers := putPointers hAddrList (buf + addrDataStart) (addrSize af) addrs.length
  let terminator := ⟨hAddrList + addrs.length * ptrSize, le64 0⟩
  let hAliases := buf + (listOffset + (addrs.length + 1) * ptrSize)
  (nameWrites ++ addrWrites ++ pointers ++ [terminator, ⟨hAliases, le64 0⟩],
    ⟨buf, hAliases, af, addrSize af, hAddrList⟩)

/-- What a call returns and stores: `errno`, `h_errno`, bytes of the buffer and
the host entry. -/
structure Reply where
  status : NssStatus
  errno : Option Int
  hErrno : Option Int
  writes : List Write
  result : Option Hostent

/-- A call that stores nothing. -/
def Reply.only (status : NssStatus) : Reply := ⟨status, none, none, [], none⟩

/-- `CStr::to_str` accepts the bytes. -/
def isUtf8 (bs : Bytes) : Bool := bs.toByteArray.validateUTF8

def isLocalhost (hostname : Bytes) : Bool :=
  hostname == "localhost".toUTF8.toList || hostname == "localhost.localdomain".toUTF8.toList

def recordTypeOf (af : Int) : Option RecordType :=
  if af = AF_INET then some .A else if af = AF_INET6 then some .AAAA else none

/-- `_nss_zebrafish_gethostbyname_r`.  A null `name` is `none`, `hasResult`
says that `result` is not null, and a null `buffer` starts at 0. -/
def gethostbynameR (exchange : Exchange) (name : Option Bytes) (af : Int) (hasResult : Bool)
    (buffer : Buffer) : Reply :=
  match name with
  | none => .only .unavail
  | some hostname =>
      if !hasResult || buffer.start == 0 then .only .unavail
      else if !isUtf8 hostname then .only .unavail
      else if isLocalhost hostname then .only .notFound
      else
        match recordTypeOf af with
        | none => .only .notFound
        | some recordType =>
            match queryLocalDns exchange hostname recordType with
            | none => ⟨.notFound, some ENOENT, some 1, [], none⟩
            | some addrs =>
                if buffer.len < needed hostname af addrs then
                  ⟨.tryAgain, some ERANGE, some 3, [], none⟩
                else
                  let (writes, hostent) := fill buffer.start hostname af addrs
                  ⟨.success, none, none, writes, some hostent⟩

/-! ## what the lookup returns -/

/-- The octets of an address. -/
def octets : IpAddr → List UInt8
  | .v4 ip => ip.octets
  | .v6 ip => ip.octets

/-- A query gives the addresses of the answers, at least one. -/
theorem queryLocalDns_eq_some {exchange : Exchange} {name : Bytes} {recordType : RecordType}
    {addrs : List IpAddr} (h : queryLocalDns exchange name recordType = some addrs) :
    ∃ answers, exchange name recordType = some answers ∧ addrs ≠ [] ∧
      addrs = answers.filterMap (RData.addr recordType) := by
  obtain ⟨answers, hanswers, h⟩ := Option.bind_eq_some_iff.mp h
  simp only [List.isEmpty_iff] at h
  split at h
  · cases h
  · next hne =>
      cases h
      exact ⟨answers, hanswers, hne, rfl⟩

/-- A lookup for a family returns addresses of that family only. -/
theorem length_octets_of_query {exchange : Exchange} {hostname : Bytes} {af : Int}
    {recordType : RecordType} (hrt : recordTypeOf af = some recordType) {addrs : List IpAddr}
    (hq : queryLocalDns exchange hostname recordType = some addrs) :
    ∀ addr ∈ addrs, (octets addr).length = addrSize af := by
  obtain ⟨answers, _, _, rfl⟩ := queryLocalDns_eq_some hq
  intro addr haddr
  obtain ⟨r, _, hr⟩ := List.mem_filterMap.mp haddr
  cases r with
  | A ip =>
      simp only [RData.addr, Option.ite_none_right_eq_some] at hr
      obtain ⟨rfl, hr⟩ := hr
      cases hr
      have haf : af = AF_INET := by
        by_contra hne
        simp only [recordTypeOf, if_neg hne, Option.ite_none_right_eq_some, Option.some.injEq,
          reduceCtorEq, and_false] at hrt
      simp [octets, addrSize, haf]
  | AAAA ip =>
      simp only [RData.addr, Option.ite_none_right_eq_some] at hr
      obtain ⟨rfl, hr⟩ := hr
      cases hr
      have haf : af ≠ AF_INET := by
        rintro rfl
        simp [recordTypeOf] at hrt
      simp [octets, addrSize, haf]
  | other => cases hr

/-! ## the layout -/

variable {buf : Nat} {hostname : Bytes} {af : Int} {addrs : List IpAddr}

/-- The first address, and then the others. -/
theorem putAddrs_cons (offset : Nat) (addr : IpAddr) :
    putAddrs buf offset (addr :: addrs) =
      (⟨buf + offset, octets addr⟩ :: (putAddrs buf (offset + (octets addr).length) addrs).1,
        (putAddrs buf (offset + (octets addr).length) addrs).2) := by
  cases addr <;> simp [putAddrs, octets]

/-- Where the addresses end. -/
theorem putAddrs_stop {size : Nat} (h : ∀ addr ∈ addrs, (octets addr).length = size)
    (offset : Nat) : (putAddrs buf offset addrs).2 = offset + size * addrs.length := by
  induction addrs generalizing offset with
  | nil => simp [putAddrs]
  | cons addr addrs ih =>
      obtain ⟨haddr, haddrs⟩ := List.forall_mem_cons.mp h
      rw [putAddrs_cons, haddr, ih haddrs, List.length_cons, Nat.mul_succ]
      omega

/-- The addresses are copied one after another. -/
theorem within_putAddrs (offset : Nat) :
    Within (buf + offset) (putAddrs buf offset addrs).1 (buf + (putAddrs buf offset addrs).2) := by
  induction addrs generalizing offset with
  | nil => exact Nat.le_refl _
  | cons addr addrs ih =>
      rw [putAddrs_cons]
      refine ⟨Nat.le_refl _, ?_⟩
      rw [Write.stop, Nat.add_assoc]
      exact ih _

/-- The `i`-th address lands `i` sizes after the first. -/
theorem mem_putAddrs {size : Nat} (h : ∀ addr ∈ addrs, (octets addr).length = size)
    (offset : Nat) {i : Nat} (hi : i < addrs.length) :
    ⟨buf + (offset + i * size), octets addrs[i]⟩ ∈ (putAddrs buf offset addrs).1 := by
  induction addrs generalizing offset i with
  | nil => exact absurd hi (Nat.not_lt_zero i)
  | cons addr addrs ih =>
      obtain ⟨haddr, haddrs⟩ := List.forall_mem_cons.mp h
      rw [putAddrs_cons]
      cases i with
      | zero => simp
      | succ i =>
          have hmem := ih haddrs (offset + size) (Nat.lt_of_succ_lt_succ hi)
          rw [haddr]
          refine List.mem_cons_of_mem _ ?_
          rw [Nat.succ_mul, Nat.add_comm (i * size) size, ← Nat.add_assoc offset size]
          exact hmem

/-- The pointers are within their list. -/
theorem within_putPointers (list first size n : Nat) :
    Within list (putPointers list first size n) (list + n * ptrSize) := by
  induction n with
  | zero => simp [putPointers, Within]
  | succ n ih =>
      rw [putPointers, List.range_succ, List.map_append]
      refine Within.append ih ⟨Nat.le_refl _, ?_⟩
      show list + n * ptrSize + (le64 _).length ≤ list + (n + 1) * ptrSize
      rw [length_le64, ptrSize]
      omega

/-- Aligning an offset, short of an overflow. -/
theorem alignUp_eq {offset : Nat} (h : offset + 7 < 2 ^ 64) :
    alignUp offset ptrSize = (offset + 7) / 8 * 8 := by
  have hmask : 2 ^ 64 - 1 - (ptrSize - 1) = (2 ^ 61 - 1) <<< 3 := by decide
  have hdiv : (offset + 7) / 8 * 8 = ((offset + 7) >>> 3) <<< 3 := by
    rw [Nat.shiftRight_eq_div_pow, Nat.shiftLeft_eq]
  rw [alignUp, hmask, hdiv]
  apply Nat.eq_of_testBit_eq
  intro i
  rw [Nat.testBit_and, Nat.testBit_shiftLeft, Nat.testBit_two_pow_sub_one, Nat.testBit_shiftLeft,
    Nat.testBit_shiftRight]
  by_cases hlow : 3 ≤ i
  · by_cases hhigh : i < 64
    · have hshift : i - 3 < 61 := by omega
      simp [hlow, hshift, ptrSize]
    · -- above the word every bit of the offset is clear
      have hle : 2 ^ 64 ≤ 2 ^ i := Nat.pow_le_pow_right (by decide) (by omega)
      have hzero : (offset + 7).testBit i = false :=
        Nat.testBit_lt_two_pow (Nat.lt_of_lt_of_le h hle)
      simp [hlow, hzero, ptrSize]
  · simp [hlow]

/-- Where the padding in front of the pointers starts. -/
def dataStop (hostname : Bytes) (af : Int) (addrs : List IpAddr) : Nat :=
  hostname.length + 1 + addrSize af * addrs.length

/-- The padding: up to the next multiple of the pointer size. -/
def padding (hostname : Bytes) (af : Int) (addrs : List IpAddr) : Nat :=
  (8 - dataStop hostname af addrs % 8) % 8

/-- The room that is asked for. -/
theorem needed_eq : needed hostname af addrs =
    dataStop hostname af addrs + (addrs.length + 2) * 8 := by
  unfold needed dataStop ptrSize
  omega

/-- The list of pointers is behind the data, with the padding between. -/
theorem alignUp_dataStop (h : dataStop hostname af addrs + 7 < 2 ^ 64) :
    alignUp (dataStop hostname af addrs) ptrSize =
      dataStop hostname af addrs + padding hostname af addrs := by
  rw [alignUp_eq h, padding]
  omega

/-- Everything follows everything before it, up to the end of the alias slot. -/
theorem within_fill (h : ∀ addr ∈ addrs, (octets addr).length = addrSize af)
    (hlt : dataStop hostname af addrs + 7 < 2 ^ 64) :
    Within buf (fill buf hostname af addrs).1
      (buf + (needed hostname af addrs + padding hostname af addrs)) := by
  have hstop : (putAddrs buf (hostname.length + 1) addrs).2 = dataStop hostname af addrs :=
    putAddrs_stop h _
  have hname : Within buf [⟨buf, hostname⟩, ⟨buf + hostname.length, [0]⟩]
      (buf + (hostname.length + 1)) :=
    ⟨Nat.le_refl _, Nat.le_refl _, Nat.le_refl _⟩
  have haddrs : Within (buf + (hostname.length + 1)) (putAddrs buf (hostname.length + 1) addrs).1
      (buf + dataStop hostname af addrs) := by
    rw [← hstop]
    exact within_putAddrs _
  have hptrs := within_putPointers (buf + alignUp (dataStop hostname af addrs) ptrSize)
    (buf + (hostname.length + 1)) (addrSize af) addrs.length
  have halign := alignUp_dataStop hlt
  simp only [fill, hstop]
  refine Within.append (Within.append (Within.append hname haddrs)
    (hptrs.mono (by omega) (Nat.le_refl _))) ⟨Nat.le_refl _, ?_, ?_⟩
  · simp only [Write.stop, length_le64, ptrSize]
    omega
  · show buf + _ + (le64 0).length ≤ _
    rw [length_le64, needed_eq, halign, ptrSize]
    omega

/-! ## what the caller reads -/

/-- The pointer at an address. -/
def loadPtr (mem : Mem) (a : Nat) : Nat := ofLe64 (load mem a ptrSize)

/-- Memory that holds, behind a host entry, a name and addresses. -/
structure Describes (mem : Mem) (h : Hostent) (hostname : Bytes) (af : Int)
    (addrs : List IpAddr) : Prop where
  addrtype : h.hAddrtype = af
  length : h.hLength = addrSize af
  name : load mem h.hName (hostname.length + 1) = hostname ++ [0]
  aligned : h.hAddrList % ptrSize = 0
  addr : ∀ i (hi : i < addrs.length),
    load mem (loadPtr mem (h.hAddrList + i * ptrSize)) h.hLength = octets addrs[i]
  terminated : loadPtr mem (h.hAddrList + addrs.length * ptrSize) = 0
  noAliases : loadPtr mem h.hAliases = 0

/-- A reply whose writes stay in the buffer, do not overlap, and leave there
what its host entry promises. -/
structure Packed (mem : Mem) (buffer : Buffer) (hostname : Bytes) (af : Int)
    (addrs : List IpAddr) (reply : Reply) : Prop where
  inBounds : ∀ w ∈ reply.writes,
    buffer.start ≤ w.start ∧ w.stop ≤ buffer.start + buffer.len
  apart : reply.writes.Pairwise Write.Apart
  entry : ∃ h, reply.result = some h ∧
    Describes (storeAll mem reply.writes) h hostname af addrs

/-- A pointer written is the pointer read. -/
theorem loadPtr_storeAll {ws : List Write} (h : ws.Pairwise Write.Apart) {a p : Nat}
    (hw : ⟨a, le64 p⟩ ∈ ws) (hp : p < 2 ^ 64) (mem : Mem) : loadPtr (storeAll mem ws) a = p := by
  have hload := load_storeAll h hw mem
  simp only [length_le64] at hload
  rw [loadPtr, ptrSize, hload, ofLe64_le64 hp]

/-- A call that succeeds found room for `needed` bytes and filled the buffer. -/
theorem reply_of_success {exchange : Exchange} {hasResult : Bool} {buffer : Buffer}
    {recordType : RecordType} (hrt : recordTypeOf af = some recordType)
    (hq : queryLocalDns exchange hostname recordType = some addrs)
    (hok : (gethostbynameR exchange (some hostname) af hasResult buffer).status = .success) :
    needed hostname af addrs ≤ buffer.len ∧
      gethostbynameR exchange (some hostname) af hasResult buffer =
        ⟨.success, none, none, (fill buffer.start hostname af addrs).1,
          some (fill buffer.start hostname af addrs).2⟩ := by
  simp only [gethostbynameR, hrt, hq, Reply.only] at hok ⊢
  by_cases hnull : (!hasResult || buffer.start == 0) = true
  · simp [hnull] at hok
  by_cases hutf : (!isUtf8 hostname) = true
  · simp [hnull, hutf] at hok
  by_cases hlocal : isLocalhost hostname = true
  · simp [hnull, hutf, hlocal] at hok
  by_cases hroom : buffer.len < needed hostname af addrs
  · simp [hnull, hutf, hlocal, hroom] at hok
  · refine ⟨Nat.not_lt.mp hroom, ?_⟩
    simp only [hnull, hutf, hlocal, hroom, if_false, Bool.false_eq_true]

/-- A filled buffer describes the host, when it ends below `2 ^ 64`. -/
theorem describes_fill (h : ∀ addr ∈ addrs, (octets addr).length = addrSize af)
    (hlt : dataStop hostname af addrs + 7 < 2 ^ 64) (haligned : buf % ptrSize = 0)
    (hfits : buf + (needed hostname af addrs + padding hostname af addrs) ≤ 2 ^ 64) (mem : Mem) :
    Describes (storeAll mem (fill buf hostname af addrs).1) (fill buf hostname af addrs).2
      hostname af addrs := by
  have hstop : (putAddrs buf (hostname.length + 1) addrs).2 = dataStop hostname af addrs :=
    putAddrs_stop h _
  have hwithin : Within buf (fill buf hostname af addrs).1 _ := within_fill h hlt
  have hread : ∀ w ∈ (fill buf hostname af addrs).1,
      load (storeAll mem (fill buf hostname af addrs).1) w.start w.bytes.length = w.bytes :=
    fun w hw => load_storeAll hwithin.pairwise hw mem
  refine ⟨rfl, rfl, ?_, ?_, ?_, ?_, ?_⟩
  · have hname := hread ⟨buf, hostname⟩ (by simp [fill])
    have hnul := hread ⟨buf + hostname.length, [0]⟩ (by simp [fill])
    show load _ buf (hostname.length + 1) = _
    rw [load_append]
    exact congrArg₂ (· ++ ·) hname hnul
  · show (buf + alignUp (putAddrs buf (hostname.length + 1) addrs).2 ptrSize) % ptrSize = 0
    rw [hstop, alignUp_dataStop hlt, padding]
    simp only [ptrSize] at haligned ⊢
    omega
  · intro i hi
    have hmem : ⟨buf + (hostname.length + 1 + i * addrSize af), octets addrs[i]⟩ ∈
        (fill buf hostname af addrs).1 := by
      simp only [fill, List.mem_append]
      exact Or.inl (Or.inl (Or.inr (mem_putAddrs h (hostname.length + 1) hi)))
    have hend := (hwithin.bounds hmem).2
    have hptr : loadPtr (storeAll mem (fill buf hostname af addrs).1)
        ((fill buf hostname af addrs).2.hAddrList + i * ptrSize) =
          buf + (hostname.length + 1) + i * addrSize af := by
      refine loadPtr_storeAll hwithin.pairwise ?_ ?_ mem
      · simp only [fill, List.mem_append, putPointers, List.mem_map, List.mem_range]
        exact Or.inl (Or.inr ⟨i, hi, rfl⟩)
      · have hpos : 0 < (octets addrs[i]).length := by
          rw [h _ (List.getElem_mem hi), addrSize]
          split <;> decide
        simp only [Write.stop] at hend
        omega
    have hocts := hread _ hmem
    simp only [h _ (List.getElem_mem hi), ← Nat.add_assoc] at hocts
    rw [hptr]
    exact hocts
  · exact loadPtr_storeAll hwithin.pairwise (by simp [fill]) (by decide) mem
  · exact loadPtr_storeAll hwithin.pairwise (by simp [fill]) (by decide) mem

/-- **The buffer.**  A call that passes its size check keeps to the buffer, and
leaves a correct host entry there, exactly when the padding fits as well. -/
theorem packed_iff (exchange : Exchange) (mem : Mem) (hostname : Bytes) (af : Int)
    (hasResult : Bool) (buffer : Buffer) (haligned : buffer.start % ptrSize = 0)
    (hok : (gethostbynameR exchange (some hostname) af hasResult buffer).status = .success)
    (recordType : RecordType) (hrt : recordTypeOf af = some recordType) (addrs : List IpAddr)
    (hq : queryLocalDns exchange hostname recordType = some addrs) :
    Packed mem buffer hostname af addrs
        (gethostbynameR exchange (some hostname) af hasResult buffer) ↔
      needed hostname af addrs + padding hostname af addrs ≤ buffer.len := by
  obtain ⟨hroom, hreply⟩ := reply_of_success hrt hq hok
  have hoctets := length_octets_of_query hrt hq
  have hfits := buffer.fits
  have hlt : dataStop hostname af addrs + 7 < 2 ^ 64 := by
    rw [needed_eq] at hroom
    omega
  have hstop : (putAddrs buffer.start (hostname.length + 1) addrs).2 =
      dataStop hostname af addrs := putAddrs_stop hoctets _
  rw [hreply]
  constructor
  · intro hpacked
    -- the alias slot is what ends last
    have halias := hpacked.inBounds ⟨(fill buffer.start hostname af addrs).2.hAliases, le64 0⟩
      (by simp [fill])
    simp only [Write.stop, length_le64, fill, hstop, alignUp_dataStop hlt] at halias
    rw [needed_eq]
    simp only [ptrSize] at halias
    omega
  · intro hle
    have hwithin : Within buffer.start (fill buffer.start hostname af addrs).1
        (buffer.start + buffer.len) :=
      (within_fill hoctets hlt).mono (Nat.le_refl _) (by omega)
    exact ⟨fun w hw => hwithin.bounds hw, hwithin.pairwise, _, rfl,
      describes_fill hoctets hlt haligned (by omega) mem⟩

/-- A lookup that finds `1.2.3.4`. -/
def oneAnswer : Exchange := fun _ _ => some [.A ⟨1, 2, 3, 4⟩]

/-- A page boundary with `len` bytes after it. -/
def pageBuffer (len : Nat) (h : len ≤ 4096) : Buffer := ⟨4096, len, by omega⟩

/-- For the name `a` and one IPv4 address, 32 bytes are enough. -/
theorem packed_of_room :
    Packed (fun _ => 0) (pageBuffer 32 (by decide)) [97] AF_INET [.v4 ⟨1, 2, 3, 4⟩]
      (gethostbynameR oneAnswer (some [97]) AF_INET true (pageBuffer 32 (by decide))) :=
  (packed_iff oneAnswer (fun _ => 0) [97] AF_INET true (pageBuffer 32 (by decide)) (by decide)
    (by decide +kernel) .A (by decide) _ (by decide)).mpr (by decide)

/-- With 30 bytes the size check passes, and the alias slot ends two bytes
after the buffer. -/
theorem alias_slot_outside :
    (gethostbynameR oneAnswer (some [97]) AF_INET true (pageBuffer 30 (by decide))).status =
        .success ∧
      ∃ w ∈ (gethostbynameR oneAnswer (some [97]) AF_INET true
          (pageBuffer 30 (by decide))).writes,
        (pageBuffer 30 (by decide)).start + (pageBuffer 30 (by decide)).len + 2 = w.stop :=
  ⟨by decide +kernel, ⟨4096 + 24, le64 0⟩, by decide +kernel, by decide⟩

end Zebrafish.Dns.Nss
