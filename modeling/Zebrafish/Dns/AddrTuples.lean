import Zebrafish.Dns.Nss

/-!
# Zebrafish.Dns.AddrTuples

The lookup behind `getaddrinfo` (`_nss_zebrafish_gethostbyname4_r` in `nss.rs`):
all addresses of a host as a chain of tuples in a buffer of the caller.

```
| next 8 | name 8 | family 4 | addr 16 | scopeid 4 |  next tuple ...
```

A tuple is not written from its first byte to its last, and the octets of an
IPv4 address are written over zeros; `walk` is how the caller reads the chain.
-/

namespace Zebrafish.Dns.Nss

open Memory Net

/-- `size_of::<GaiAddrTuple>()` -/
def tupleSize : Nat := 40

/-- What is written for one address, as the source orders it, into the tuple
at `tuple`. -/
def putTuple (name next tuple : Nat) (addr : IpAddr) : List Write :=
  [⟨tuple, le64 next⟩, ⟨tuple + 8, le64 name⟩, ⟨tuple + 36, le32 0⟩] ++
    match addr with
    | .v4 ip => [⟨tuple + 16, le32 AF_INET.toNat⟩, ⟨tuple + 20, List.replicate 16 0⟩,
        ⟨tuple + 20, ip.octets⟩]
    | .v6 ip => [⟨tuple + 16, le32 AF_INET6.toNat⟩, ⟨tuple + 20, ip.octets⟩]

/-- The loop over the addresses, from the tuple at `tuple` on. -/
def putTuples (name tuple : Nat) : List IpAddr → List Write
  | [] => []
  | addr :: addrs =>
      putTuple name (if addrs.isEmpty then 0 else tuple + tupleSize) tuple addr ++
        putTuples name (tuple + tupleSize) addrs

/-- A string of the caller: where it is and what it holds. -/
structure CString where
  ptr : Nat
  bytes : Bytes
  inMemory : ptr < 2 ^ 64

/-- The addresses of a host, of both families. -/
def allAddrs (exchange : Exchange) (hostname : Bytes) : List IpAddr :=
  (queryLocalDns exchange hostname .A).getD [] ++ (queryLocalDns exchange hostname .AAAA).getD []

/-- What a call returns and stores: `errno`, `h_errno`, bytes of the buffer and
`*pat`. -/
structure TupleReply where
  status : NssStatus
  errno : Option Int
  hErrno : Option Int
  writes : List Write
  pat : Option Nat

def TupleReply.only (status : NssStatus) : TupleReply := ⟨status, none, none, [], none⟩

/-- `_nss_zebrafish_gethostbyname4_r`.  A null `name` is `none`, `hasPat` says
that `pat` is not null, and a null `buffer` starts at 0. -/
def gethostbyname4R (exchange : Exchange) (name : Option CString) (hasPat : Bool)
    (buffer : Buffer) : TupleReply :=
  match name with
  | none => .only .unavail
  | some name =>
      if !hasPat || buffer.start == 0 then .only .unavail
      else if !isUtf8 name.bytes then .only .unavail
      else if isLocalhost name.bytes then .only .notFound
      else
        let addrs := allAddrs exchange name.bytes
        if addrs.isEmpty then ⟨.notFound, some ENOENT, some 1, [], none⟩
        else if buffer.len < addrs.length * tupleSize then
          ⟨.tryAgain, some ERANGE, some 3, [], none⟩
        else ⟨.success, none, none, putTuples name.ptr buffer.start addrs, some buffer.start⟩

/-! ## what the caller reads -/

/-- A tuple without its link. -/
structure AddrTuple where
  name : Nat
  family : Nat
  addr : Bytes
  scopeid : Nat
deriving DecidableEq

def loadTuple (mem : Mem) (tuple : Nat) : AddrTuple :=
  ⟨loadPtr mem (tuple + 8), ofLe32 (load mem (tuple + 16) 4), load mem (tuple + 20) 16,
    ofLe32 (load mem (tuple + 36) 4)⟩

/-- Follows a chain to its null; `none` where there are more than `fuel`
tuples. -/
def walk (mem : Mem) : Nat → Nat → Option (List AddrTuple)
  | fuel, tuple =>
      if tuple = 0 then some []
      else
        match fuel with
        | 0 => none
        | fuel + 1 => (walk mem fuel (loadPtr mem tuple)).map (loadTuple mem tuple :: ·)

def family : IpAddr → Nat
  | .v4 _ => AF_INET.toNat
  | .v6 _ => AF_INET6.toNat

/-- The tuple of an address. -/
def tupleOf (name : Nat) (addr : IpAddr) : AddrTuple :=
  ⟨name, family addr, octets addr ++ List.replicate (16 - (octets addr).length) 0, 0⟩

/-! ### one tuple -/

section

variable {name next tuple : Nat} {addr : IpAddr} {addrs : List IpAddr}

/-- Nothing is written outside of the tuple. -/
theorem bounds_putTuple : ∀ w ∈ putTuple name next tuple addr,
    tuple ≤ w.start ∧ w.stop ≤ tuple + tupleSize := by
  cases addr <;> simp [putTuple, Write.stop, tupleSize]

/-- The fields before the address are read back. -/
theorem load_putTuple (mem : Mem) :
    load (storeAll mem (putTuple name next tuple addr)) tuple 8 = le64 next ∧
      load (storeAll mem (putTuple name next tuple addr)) (tuple + 8) 8 = le64 name ∧
      load (storeAll mem (putTuple name next tuple addr)) (tuple + 36) 4 = le32 0 ∧
      load (storeAll mem (putTuple name next tuple addr)) (tuple + 16) 4 = le32 (family addr) := by
  have hread : ∀ before w after, putTuple name next tuple addr = before ++ w :: after →
      (∀ v ∈ after, w.stop ≤ v.start ∨ v.stop ≤ w.start) →
        load (storeAll mem (putTuple name next tuple addr)) w.start w.bytes.length = w.bytes := by
    intro before w after hsplit hafter
    rw [hsplit]
    exact load_storeAll_last hafter mem
  cases addr <;>
    exact ⟨hread [] ⟨tuple, le64 next⟩ _ rfl (by simp [Write.stop]),
      hread [_] ⟨tuple + 8, le64 name⟩ _ rfl (by simp [Write.stop]),
      hread [_, _] ⟨tuple + 36, le32 0⟩ _ rfl (by simp [Write.stop]),
      hread [_, _, _] ⟨tuple + 16, le32 _⟩ _ rfl (by simp [Write.stop])⟩

/-- So is the address, with zeros behind that of IPv4. -/
theorem load_addr_putTuple (mem : Mem) :
    load (storeAll mem (putTuple name next tuple addr)) (tuple + 20) 16 =
      octets addr ++ List.replicate (16 - (octets addr).length) 0 := by
  cases addr with
  | v4 ip =>
      have hsplit : putTuple name next tuple (.v4 ip) =
          [⟨tuple, le64 next⟩, ⟨tuple + 8, le64 name⟩, ⟨tuple + 36, le32 0⟩,
            ⟨tuple + 16, le32 AF_INET.toNat⟩] ++ [⟨tuple + 20, List.replicate 16 0⟩] ++
            [⟨tuple + 20, ip.octets⟩] := rfl
      rw [hsplit, storeAll_append, storeAll_append]
      generalize storeAll mem _ = mem
      have hzero : load (store mem ⟨tuple + 20, List.replicate 16 0⟩) (tuple + 20) (4 + 12) =
          List.replicate 4 0 ++ List.replicate 12 0 :=
        load_store mem ⟨tuple + 20, List.replicate 16 0⟩
      rw [load_append] at hzero
      have hrest := List.append_inj_right hzero (by simp)
      have hocts := load_store (store mem ⟨tuple + 20, List.replicate 16 0⟩)
        ⟨tuple + 20, ip.octets⟩
      have hframe := load_store_of_apart (w := ⟨tuple + 20, ip.octets⟩) (a := tuple + 20 + 4)
        (n := 12) (Or.inr (by simp [Write.stop])) (store mem ⟨tuple + 20, List.replicate 16 0⟩)
      exact (load_append _ (tuple + 20) 4 12).trans
        (congrArg₂ (· ++ ·) hocts (hframe.trans hrest))
  | v6 ip =>
      have hocts := @load_storeAll_last
        [⟨tuple, le64 next⟩, ⟨tuple + 8, le64 name⟩, ⟨tuple + 36, le32 0⟩,
          ⟨tuple + 16, le32 AF_INET6.toNat⟩] [] ⟨tuple + 20, ip.octets⟩ (by simp) mem
      simpa [octets, putTuple] using hocts

/-- A tuple is read back from memory. -/
theorem loadTuple_putTuple (hname : name < 2 ^ 64) (mem : Mem) :
    loadTuple (storeAll mem (putTuple name next tuple addr)) tuple = tupleOf name addr := by
  obtain ⟨-, hload, hscope, hfamily⟩ := @load_putTuple name next tuple addr mem
  have hsmall : family addr < 2 ^ 32 := by
    cases addr <;> simp [family, AF_INET, AF_INET6]
  rw [loadTuple, loadPtr, ptrSize, hload, hscope, hfamily, load_addr_putTuple, ofLe64_le64 hname,
    ofLe32_le32 hsmall, ofLe32_le32 (by simp), tupleOf]

/-! ### the chain -/

/-- The writes of a loop stay behind its first tuple. -/
theorem bounds_putTuples : ∀ w ∈ putTuples name tuple addrs,
    tuple ≤ w.start ∧ w.stop ≤ tuple + addrs.length * tupleSize := by
  induction addrs generalizing tuple with
  | nil => simp [putTuples]
  | cons addr addrs ih =>
      intro w hw
      rw [List.length_cons, Nat.succ_mul]
      obtain hw | hw := List.mem_append.mp hw
      · have hbounds := bounds_putTuple w hw
        omega
      · have hbounds := ih w hw
        omega

/-- What follows a tuple leaves it as it is. -/
theorem load_putTuples {a n : Nat} (hend : a + n ≤ tuple) (mem : Mem) :
    load (storeAll mem (putTuples name tuple addrs)) a n = load mem a n :=
  load_storeAll_of_apart
    (fun w hw => Or.inl (Nat.le_trans hend (bounds_putTuples w hw).1)) mem

/-- The caller walks through all tuples, in their order. -/
theorem walk_putTuples (hname : name < 2 ^ 64) (hne : addrs ≠ []) (hpos : 0 < tuple)
    (hfits : tuple + addrs.length * tupleSize ≤ 2 ^ 64) {fuel : Nat} (hfuel : addrs.length ≤ fuel)
    (mem : Mem) :
    walk (storeAll mem (putTuples name tuple addrs)) fuel tuple =
      some (addrs.map (tupleOf name)) := by
  induction addrs generalizing tuple fuel mem with
  | nil => exact absurd rfl hne
  | cons addr addrs ih =>
      rw [List.length_cons, Nat.succ_mul] at hfits
      rw [List.length_cons] at hfuel
      obtain ⟨fuel, rfl⟩ : ∃ n, fuel = n + 1 := ⟨fuel - 1, by omega⟩
      rw [putTuples, storeAll_append]
      have hhere : loadTuple (storeAll (storeAll mem (putTuple name
          (if addrs.isEmpty then 0 else tuple + tupleSize) tuple addr))
          (putTuples name (tuple + tupleSize) addrs)) tuple = tupleOf name addr := by
        rw [← @loadTuple_putTuple name (if addrs.isEmpty then 0 else tuple + tupleSize) tuple addr
          hname mem]
        simp only [loadTuple, loadPtr, ptrSize]
        rw [load_putTuples (by simp [tupleSize]), load_putTuples (by simp [tupleSize]),
          load_putTuples (by simp [tupleSize]), load_putTuples (by simp [tupleSize])]
      have hnext : loadPtr (storeAll (storeAll mem (putTuple name
          (if addrs.isEmpty then 0 else tuple + tupleSize) tuple addr))
          (putTuples name (tuple + tupleSize) addrs)) tuple =
            if addrs.isEmpty then 0 else tuple + tupleSize := by
        rw [loadPtr, ptrSize, load_putTuples (by simp [tupleSize]), (load_putTuple mem).1,
          ofLe64_le64]
        cases addrs with
        | nil => simp
        | cons addr' addrs =>
            simp only [List.isEmpty_cons, if_false, Bool.false_eq_true, List.length_cons,
              tupleSize] at hfits ⊢
            omega
      have hrest : walk (storeAll (storeAll mem (putTuple name
          (if addrs.isEmpty then 0 else tuple + tupleSize) tuple addr))
          (putTuples name (tuple + tupleSize) addrs)) fuel
          (if addrs.isEmpty then 0 else tuple + tupleSize) = some (addrs.map (tupleOf name)) := by
        cases addrs with
        | nil => cases fuel <;> simp [walk]
        | cons addr' addrs => exact ih (by simp) (by omega) (by omega) (by omega) _
      rw [walk, if_neg (by omega)]
      simp only [hhere, hnext, hrest, Option.map_some, List.map_cons]

end

/-! ## the calls -/

/-- What a call needs to look for room. -/
structure Finds (exchange : Exchange) (name : CString) (hasPat : Bool) (buffer : Buffer) :
    Prop where
  hasPat : hasPat = true
  hasBuffer : buffer.start ≠ 0
  utf8 : isUtf8 name.bytes = true
  notLocal : isLocalhost name.bytes = false
  found : allAddrs exchange name.bytes ≠ []

variable {exchange : Exchange} {name : CString} {hasPat : Bool} {buffer : Buffer}

/-- Where there are addresses, only the room decides. -/
theorem Finds.reply (h : Finds exchange name hasPat buffer) :
    gethostbyname4R exchange (some name) hasPat buffer =
      if buffer.len < (allAddrs exchange name.bytes).length * tupleSize then
        ⟨.tryAgain, some ERANGE, some 3, [], none⟩
      else ⟨.success, none, none,
        putTuples name.ptr buffer.start (allAddrs exchange name.bytes), some buffer.start⟩ := by
  simp [gethostbyname4R, h.hasPat, h.hasBuffer, h.utf8, h.notLocal, h.found]

/-- There are addresses to give, or nothing is written. -/
theorem finds_or (exchange : Exchange) (name : CString) (hasPat : Bool) (buffer : Buffer) :
    Finds exchange name hasPat buffer ∨
      ∃ status errno hErrno, (status = .unavail ∨ status = .notFound) ∧
        gethostbyname4R exchange (some name) hasPat buffer = ⟨status, errno, hErrno, [], none⟩ := by
  rw [or_iff_not_imp_left]
  intro hnot
  simp only [gethostbyname4R]
  by_cases hnull : (!hasPat || buffer.start == 0) = true
  · exact ⟨.unavail, none, none, Or.inl rfl, if_pos hnull⟩
  rw [if_neg hnull]
  by_cases hutf : (!isUtf8 name.bytes) = true
  · exact ⟨.unavail, none, none, Or.inl rfl, if_pos hutf⟩
  rw [if_neg hutf]
  by_cases hlocal : isLocalhost name.bytes = true
  · exact ⟨.notFound, none, none, Or.inr rfl, if_pos hlocal⟩
  rw [if_neg hlocal]
  by_cases hnone : (allAddrs exchange name.bytes).isEmpty = true
  · exact ⟨.notFound, some ENOENT, some 1, Or.inr rfl, if_pos hnone⟩
  · exact absurd ⟨by simp_all, by simp_all, by simp_all, by simp_all, by simp_all⟩ hnot

/-- What a successful call has done. -/
theorem reply_of_listed
    (hok : (gethostbyname4R exchange (some name) hasPat buffer).status = .success) :
    Finds exchange name hasPat buffer ∧
      (allAddrs exchange name.bytes).length * tupleSize ≤ buffer.len ∧
      gethostbyname4R exchange (some name) hasPat buffer = ⟨.success, none, none,
        putTuples name.ptr buffer.start (allAddrs exchange name.bytes), some buffer.start⟩ := by
  obtain hfinds | ⟨status, errno, hErrno, hstatus, hreply⟩ := finds_or exchange name hasPat buffer
  · have hreply := hfinds.reply
    split at hreply
    · simp [hreply] at hok
    · next hroom => exact ⟨hfinds, Nat.not_lt.mp hroom, hreply⟩
  · rw [hreply] at hok
    obtain rfl | rfl := hstatus <;> cases hok

/-- What is read after a call that succeeds. -/
theorem walk_of_listed
    (hok : (gethostbyname4R exchange (some name) hasPat buffer).status = .success) {fuel : Nat}
    (hfuel : (allAddrs exchange name.bytes).length ≤ fuel) (mem : Mem) :
    walk (storeAll mem (gethostbyname4R exchange (some name) hasPat buffer).writes) fuel
      buffer.start = some ((allAddrs exchange name.bytes).map (tupleOf name.ptr)) := by
  obtain ⟨hfinds, hroom, hreply⟩ := reply_of_listed hok
  have hfits := buffer.fits
  rw [hreply]
  exact walk_putTuples name.inMemory hfinds.found (Nat.pos_of_ne_zero hfinds.hasBuffer) (by omega)
    hfuel mem

/-- **The chain.**  A call that succeeds writes inside of its buffer only, and
from `*pat` its caller reads the IPv4 addresses and then the IPv6 addresses, all
of them, in the order of the answers.  Any other call stores no address, and one
that asks for more room succeeds once it is given so much. -/
theorem tuples_listed (exchange : Exchange) (mem : Mem) (name : CString) (hasPat : Bool)
    (buffer : Buffer) :
    let addrs := allAddrs exchange name.bytes
    let reply := gethostbyname4R exchange (some name) hasPat buffer
    (reply.status = .success →
      (∀ w ∈ reply.writes, buffer.start ≤ w.start ∧ w.stop ≤ buffer.start + buffer.len) ∧
        ∃ tuples, reply.pat = some tuples ∧ ∀ fuel, addrs.length ≤ fuel →
          walk (storeAll mem reply.writes) fuel tuples = some (addrs.map (tupleOf name.ptr))) ∧
      (reply.status ≠ .success → reply.writes = [] ∧ reply.pat = none) ∧
      (reply.status = .tryAgain → ∀ buffer' : Buffer, buffer'.start ≠ 0 →
        addrs.length * tupleSize ≤ buffer'.len →
          (gethostbyname4R exchange (some name) hasPat buffer').status = .success) := by
  intro addrs reply
  refine ⟨fun hok => ?_, fun hnot => ?_, fun hroom buffer' hbuf hroom' => ?_⟩
  · obtain ⟨hfinds, hroom, hreply⟩ := reply_of_listed hok
    have hreply : reply = _ := hreply
    refine ⟨fun w hw => ?_, buffer.start, by rw [hreply], fun fuel hfuel =>
      walk_of_listed hok hfuel mem⟩
    rw [hreply] at hw
    have hbounds := bounds_putTuples w hw
    exact ⟨hbounds.1, by omega⟩
  · obtain hfinds | ⟨status, errno, hErrno, -, hreply⟩ := finds_or exchange name hasPat buffer
    · have hreply : reply = _ := hfinds.reply
      split at hreply <;> simp_all
    · have hreply : reply = _ := hreply
      simp [hreply]
  · obtain hfinds | ⟨status, errno, hErrno, hstatus, hreply⟩ :=
      finds_or exchange name hasPat buffer
    · have hfinds' : Finds exchange name hasPat buffer' :=
        ⟨hfinds.hasPat, hbuf, hfinds.utf8, hfinds.notLocal, hfinds.found⟩
      rw [hfinds'.reply, if_neg (Nat.not_lt.mpr hroom')]
    · have hreply : reply = _ := hreply
      rw [hreply] at hroom
      obtain rfl | rfl := hstatus <;> cases hroom

/-! ## both lookups -/

/-- Addresses of a type are of its family. -/
theorem family_of_query {recordType : RecordType} {af : Int} {hostname : Bytes}
    (hrt : recordTypeOf af = some recordType) :
    ∀ addr ∈ (queryLocalDns exchange hostname recordType).getD [], family addr = af.toNat := by
  cases hq : queryLocalDns exchange hostname recordType with
  | none => simp
  | some addrs =>
      intro addr haddr
      have hlen := length_octets_of_query hrt hq addr haddr
      simp only [recordTypeOf] at hrt
      split at hrt
      · next haf =>
          rw [haf, addrSize, if_pos rfl] at hlen
          cases addr with
          | v4 ip => rw [family, haf]
          | v6 ip => simp [octets] at hlen
      · next hne =>
          split at hrt
          · next haf =>
              rw [addrSize, if_neg hne] at hlen
              cases addr with
              | v4 ip => simp [octets] at hlen
              | v6 ip => rw [family, haf]
          · cases hrt

/-- The addresses of one family are those of the one query. -/
theorem filter_allAddrs {recordType : RecordType} {af : Int} {hostname : Bytes}
    (hrt : recordTypeOf af = some recordType) :
    (allAddrs exchange hostname).filter (fun addr => family addr = af.toNat) =
      (queryLocalDns exchange hostname recordType).getD [] := by
  have hA : ∀ addr ∈ (queryLocalDns exchange hostname .A).getD [],
      family addr = AF_INET.toNat := family_of_query rfl
  have hAAAA : ∀ addr ∈ (queryLocalDns exchange hostname .AAAA).getD [],
      family addr = AF_INET6.toNat := family_of_query rfl
  have hne : AF_INET.toNat ≠ AF_INET6.toNat := by decide
  rw [allAddrs, List.filter_append]
  simp only [recordTypeOf] at hrt
  split at hrt
  · next haf =>
      cases hrt
      rw [haf, List.filter_eq_self.mpr (by simpa using hA),
        List.filter_eq_nil_iff.mpr fun addr haddr => by simp [hAAAA addr haddr, hne.symm],
        List.append_nil]
  · split at hrt
    · next haf =>
        cases hrt
        rw [haf, List.filter_eq_nil_iff.mpr fun addr haddr => by simp [hA addr haddr, hne],
          List.filter_eq_self.mpr (by simpa using hAAAA), List.nil_append]
    · cases hrt

/-- A call for a host entry that succeeds had addresses to enter. -/
theorem query_of_success {hostname : Bytes} {af : Int} {hasResult : Bool}
    (hok : (gethostbynameR exchange (some hostname) af hasResult buffer).status = .success) :
    ∃ recordType addrs, recordTypeOf af = some recordType ∧
      queryLocalDns exchange hostname recordType = some addrs := by
  simp only [gethostbynameR, Reply.only] at hok
  split at hok
  · cases hok
  split at hok
  · cases hok
  split at hok
  · cases hok
  split at hok
  · cases hok
  · next recordType hrt =>
      split at hok
      · cases hok
      · next addrs hq => exact ⟨recordType, addrs, hrt, hq⟩

/-- The tuples of a family are those of the addresses asked for. -/
theorem tuples_of_family {exchange : Exchange} {name : CString} {af : Int}
    {recordType : RecordType} {addrs : List IpAddr} (hrt : recordTypeOf af = some recordType)
    (hq : queryLocalDns exchange name.bytes recordType = some addrs) :
    ((allAddrs exchange name.bytes).map (tupleOf name.ptr)).filter
      (fun tuple => tuple.family = af.toNat) = addrs.map (tupleOf name.ptr) := by
  have haddrs : (allAddrs exchange name.bytes).filter (fun addr => family addr = af.toNat) =
      (queryLocalDns exchange name.bytes recordType).getD [] := filter_allAddrs hrt
  rw [hq, Option.getD_some] at haddrs
  rw [List.filter_map, ← haddrs]
  rfl

/-- **Both lookups agree.**  Where the host entry of a family and the chain are
both filled from one and the same exchange, there are tuples of that family, and
the entry lists the addresses they have, in their order, and no others. -/
theorem entries_agree (exchange : Exchange) (mem mem' : Mem) (name : CString) (af : Int)
    (hasPat hasResult : Bool) (buffer buffer' : Buffer)
    (hchain : (gethostbyname4R exchange (some name) hasPat buffer).status = .success)
    (hentry : (gethostbynameR exchange (some name.bytes) af hasResult buffer').status = .success)
    (haligned : buffer'.start % ptrSize = 0) (hend : buffer'.start + buffer'.len + 7 ≤ 2 ^ 64) :
    ∃ first tuples entry,
      (gethostbyname4R exchange (some name) hasPat buffer).pat = some first ∧
        (∃ fuel, walk (storeAll mem (gethostbyname4R exchange (some name) hasPat buffer).writes)
          fuel first = some tuples) ∧
        (gethostbynameR exchange (some name.bytes) af hasResult buffer').result = some entry ∧
        let listed := tuples.filter fun tuple => tuple.family = af.toNat
        let mem' := storeAll mem'
          (gethostbynameR exchange (some name.bytes) af hasResult buffer').writes
        listed ≠ [] ∧
        (∀ i (hi : i < listed.length),
          load mem' (loadPtr mem' (entry.hAddrList + i * ptrSize)) entry.hLength =
            listed[i].addr.take entry.hLength) ∧
          loadPtr mem' (entry.hAddrList + listed.length * ptrSize) = 0 := by
  obtain ⟨recordType, addrs, hrt, hq⟩ := query_of_success hentry
  obtain ⟨-, -, hreply⟩ := reply_of_listed hchain
  obtain ⟨hneeded, hreply'⟩ := reply_of_success hrt hq hentry
  have hoctets := length_octets_of_query hrt hq
  have hpad : padding name.bytes af addrs ≤ 7 := by
    unfold padding
    omega
  have hlt : dataStop name.bytes af addrs + 7 < 2 ^ 64 := by
    rw [needed_eq] at hneeded
    omega
  have hdescribes := describes_fill hoctets hlt haligned (by omega) mem'
  refine ⟨buffer.start, _, (fill buffer'.start name.bytes af addrs).2, by rw [hreply],
    ⟨_, walk_of_listed hchain (Nat.le_refl _) mem⟩, by rw [hreply'], ?_⟩
  rw [tuples_of_family hrt hq, hreply']
  obtain ⟨_, _, hne, _⟩ := queryLocalDns_eq_some hq
  refine ⟨by simpa using hne, fun i hi => ?_, by simpa using hdescribes.terminated⟩
  rw [List.length_map] at hi
  refine (hdescribes.addr i hi).trans ?_
  rw [List.getElem_map, tupleOf, hdescribes.length,
    ← hoctets _ (List.getElem_mem hi), List.take_left]

/-- The name `a`, somewhere in memory. -/
def aName : CString := ⟨8192, [97], by omega⟩

theorem entries_agree_one :
    let chain := gethostbyname4R oneAnswer (some aName) true (pageBuffer 40 (by decide))
    let reply := gethostbynameR oneAnswer (some [97]) AF_INET true (pageBuffer 32 (by decide))
    let mem := storeAll (fun _ => 0) reply.writes
    ∃ first fuel tuples entry, chain.pat = some first ∧
      walk (storeAll (fun _ => 0) chain.writes) fuel first = some tuples ∧
      reply.result = some entry ∧ ∃ tuple ∈ tuples, tuple.family = AF_INET.toNat ∧
        load mem (loadPtr mem entry.hAddrList) entry.hLength =
          tuple.addr.take entry.hLength := by
  obtain ⟨first, tuples, entry, hfirst, ⟨fuel, hwalk⟩, hentry, hne, haddr, -⟩ :=
    entries_agree oneAnswer (fun _ => 0) (fun _ => 0) aName AF_INET true true
      (pageBuffer 40 (by decide)) (pageBuffer 32 (by decide)) (by decide +kernel)
      (by decide +kernel) (by decide) (by decide)
  have hpos := List.length_pos_of_ne_nil hne
  have hmem := List.mem_filter.mp (List.getElem_mem hpos)
  have hzero := haddr 0 hpos
  rw [Nat.zero_mul, Nat.add_zero] at hzero
  exact ⟨first, fuel, tuples, entry, hfirst, hwalk, hentry, _, hmem.1, by simpa using hmem.2,
    hzero⟩

end Zebrafish.Dns.Nss
