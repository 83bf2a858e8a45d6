import Zebrafish.ConfigTool.Variables
import Zebrafish.System.NbdHeal

/-!
# Zebrafish.System.Discover

How the daemon finds its devices and pools (`discover` in
`etc/nbd-heal/nbd-heal`).

It evaluates the configuration again and again in the same shell, and a
variable that is not assigned any more keeps its old value.  `configured` is
what a configuration says by itself; `discovers_eq_iff` says when a sequence of
calls finds just that.
-/

namespace Zebrafish.System.NbdHeal

open Toml Shell ConfigTool

/-! ## discover -/

/-- The variable of a client, `NBD_CLIENT_<i>_<field>`. -/
def clientVar (i : Nat) (field : String) : String :=
  "NBD_CLIENT_" ++ (toString i ++ ("_" ++ field))

def readClient (vars : Env) (i : Nat) : Client where
  addr := deref vars (clientVar i "ADDRESS")
  port := deref vars (clientVar i "PORT")
  dev := deref vars (clientVar i "DEVICE")
  name := derefOr vars (clientVar i "EXPORT") "export"
  tmo := derefOr vars (clientVar i "TIMEOUT") "180"

def readClients (vars : Env) : List Client :=
  (List.range (number (derefOr vars "NBD_CLIENT_COUNT" "0"))).map (readClient vars)

def readPools (vars : Env) : List String :=
  (List.range (number (derefOr vars "ZFS_MOUNT_COUNT" "0"))).map fun i =>
    deref vars ("ZFS_MOUNT_" ++ (toString i ++ "_NAME"))

/-- `discover`, in a shell with some variables. -/
def discover (D : Display) (c : Config) (vars : Env) : Option (Setup × Env) := do
  let vars ← evalOutput vars (listOutput D c "nbd-client")
  let clients := readClients vars
  let vars ← evalOutput vars (listOutput D c "zfs-mount")
  pure (⟨clients, readPools vars⟩, vars)

/-- What a sequence of calls finds, each with the configuration of its time. -/
def discovers (D : Display) : List Config → Env → Option (List Setup)
  | [], _ => some []
  | c :: cs, vars => do
      let (setup, vars) ← discover D c vars
      let setups ← discovers D cs vars
      pure (setup :: setups)

/-! ## what a configuration says -/

def Client.configured (n : NbdClient) : Client where
  addr := dropNul n.address
  port := toString n.port.toNat
  dev := dropNul n.device
  name := orDefault "export" (n.exportName.map dropNul)
  tmo := orDefault "180" (n.timeout.map fun t => toString t.toNat)

def configured (c : Config) : Setup where
  clients := c.nbdClient.map Client.configured
  pools := c.zfsMount.map fun z => dropNul z.name

/-- What the last configuration that sets something sets. -/
def lastSet {α : Type} (earlier : List Config) (f : Config → Option α) : Option α :=
  earlier.reverse.findSome? f

/-- Nothing of earlier configurations shows through. -/
structure Fresh (earlier : List Config) (c : Config) : Prop where
  clients : c.nbdClient = [] → ∀ c' ∈ earlier, c'.nbdClient = []
  pools : c.zfsMount = [] → ∀ c' ∈ earlier, c'.zfsMount = []
  exports : ∀ (i : Nat) (n : NbdClient), c.nbdClient[i]? = some n → n.exportName = none →
    ∀ e, lastSet earlier (fun c' => c'.nbdClient[i]?.bind NbdClient.exportName) = some e →
      dropNul e = "" ∨ dropNul e = "export"
  timeouts : ∀ (i : Nat) (n : NbdClient), c.nbdClient[i]? = some n → n.timeout = none →
    ∀ t, lastSet earlier (fun c' => c'.nbdClient[i]?.bind NbdClient.timeout) = some t → t = 180

/-! ## variables -/

/-- The variables after some calls. -/
def log (D : Display) (earlier : List Config) : Env :=
  earlier.flatMap fun c => sectionVars D c "nbd-client" ++ sectionVars D c "zfs-mount"

/-- What was set last, with one more configuration. -/
theorem lastSet_append {α : Type} (earlier : List Config) (c : Config) (f : Config → Option α) :
    lastSet (earlier ++ [c]) f = (f c).or (lastSet earlier f) := by
  cases h : f c <;> simp [lastSet, h]

/-- What was set last, seen through a function. -/
theorem lastSet_map {α β : Type} (earlier : List Config) (f : Config → Option α) (g : α → β) :
    lastSet earlier (fun c => (f c).map g) = (lastSet earlier f).map g := by
  rw [lastSet, lastSet, List.map_findSome?]
  rfl

/-- Nothing was set just if no configuration sets it. -/
theorem lastSet_eq_none {α : Type} {earlier : List Config} {f : Config → Option α} :
    lastSet earlier f = none ↔ ∀ c ∈ earlier, f c = none := by
  simp [lastSet]

/-- What was set last was set by one of them. -/
theorem lastSet_mem {α : Type} {earlier : List Config} {f : Config → Option α} {a : α}
    (h : lastSet earlier f = some a) : ∃ c ∈ earlier, f c = some a := by
  obtain ⟨c, hc, hfc⟩ := List.exists_of_findSome?_eq_some h
  exact ⟨c, List.mem_reverse.mp hc, hfc⟩

section

variable (D : Display) (earlier : List Config) (path : List Segment) (count : Bool)

/-- A variable has what it was assigned last. -/
theorem valueOf_log (h : HasSlot Config.ty path count)
    (hhead : path.head? = some (.field "nbd-client") ∨ path.head? = some (.field "zfs-mount")) :
    valueOf (log D earlier) (varName path count) = lastSet earlier (textAt D path) := by
  induction earlier using List.reverseRecOn with
  | nil => rfl
  | append_singleton earlier c ih =>
      rw [lastSet_append, ← ih, log, List.flatMap_append, List.flatMap_singleton, ← log,
        valueOf_append, valueOf_append, valueOf_sectionVars D c _ h, valueOf_sectionVars D c _ h]
      rcases hhead with hhead | hhead <;> simp [hhead]

/-- A variable of a client: what is set now, or was last. -/
theorem valueOf_clients (c : Config) (h : HasSlot Config.ty path count)
    (hhead : path.head? = some (.field "nbd-client")) :
    valueOf (log D earlier ++ sectionVars D c "nbd-client") (varName path count) =
      (textAt D path c).or (lastSet earlier (textAt D path)) := by
  rw [valueOf_append, valueOf_log D earlier path count h (Or.inl hhead),
    valueOf_sectionVars D c _ h,
    if_pos hhead]

/-- A variable of a pool: what is set now, or was last. -/
theorem valueOf_pools (c : Config) (h : HasSlot Config.ty path count)
    (hhead : path.head? = some (.field "zfs-mount")) :
    valueOf (log D (earlier ++ [c])) (varName path count) =
      (textAt D path c).or (lastSet earlier (textAt D path)) := by
  rw [valueOf_log D _ path count h (Or.inr hhead), lastSet_append]

end

/-! ## what is assigned -/

/-- The section `nbd-client`, as it is walked. -/
theorem Config.walk_nbdClient (c : Config) (tail : List Segment) :
    walkSegments (.field "nbd-client" :: tail) c.view =
      (if c.nbdClient.isEmpty then none else some (NbdClient.codec.array.ser c.nbdClient)).bind
        (walkSegments tail) := by
  rw [Config.view, Config.codec, walk_struct (by decide +kernel)]
  simp only [Fields.optional, Fields.vec, Fields.cons, Fields.nil, lookup_entry]
  simp

/-- The section `zfs-mount`, as it is walked. -/
theorem Config.walk_zfsMount (c : Config) (tail : List Segment) :
    walkSegments (.field "zfs-mount" :: tail) c.view =
      (if c.zfsMount.isEmpty then none else some (ZfsMount.codec.array.ser c.zfsMount)).bind
        (walkSegments tail) := by
  rw [Config.view, Config.codec, walk_struct (by decide +kernel)]
  simp only [Fields.optional, Fields.vec, Fields.cons, Fields.nil, lookup_entry]
  simp

/-- What is written of a client. -/
theorem NbdClient.walk_field (n : NbdClient) (k : String) (tail : List Segment) :
    walkSegments (.field k :: tail) (NbdClient.codec.ser n) =
      (if k = "address" then some (.string n.address)
      else if k = "port" then some (.integer n.port.toNat)
      else if k = "device" then some (.string n.device)
      else if k = "export" then n.exportName.map .string
      else if k = "timeout" then n.timeout.map fun t => .integer t.toNat
      else none).bind (walkSegments tail) := by
  rw [NbdClient.codec, walk_struct (by decide +kernel)]
  simp only [Fields.required, Fields.optional, Fields.cons, Fields.nil, lookup_entry]
  congr 1
  split_ifs <;> simp_all [Codec.string, Codec.u16, Codec.unsigned]

section

variable (D : Display) (c : Config) (i : Nat)

/-- The field of a client. -/
theorem textAt_client (k : String) :
    textAt D [.field "nbd-client", .index i, .field k] c =
      c.nbdClient[i]?.bind fun n => textIn D [.field k] (NbdClient.codec.ser n) := by
  rw [textAt, textIn_element D (Config.walk_nbdClient c)]

/-- The address of a client. -/
theorem textAt_address :
    textAt D [.field "nbd-client", .index i, .field "address"] c =
      c.nbdClient[i]?.map fun n => dropNul n.address := by
  rw [textAt_client]
  cases c.nbdClient[i]? <;>
    simp [textIn_of_walk (NbdClient.walk_field _ _ _), textIn_string]

/-- The port of a client. -/
theorem textAt_port :
    textAt D [.field "nbd-client", .index i, .field "port"] c =
      c.nbdClient[i]?.map fun n => toString n.port.toNat := by
  rw [textAt_client]
  cases c.nbdClient[i]? <;> simp [textIn_of_walk (NbdClient.walk_field _ _ _), textIn_nat]

/-- The device of a client. -/
theorem textAt_device :
    textAt D [.field "nbd-client", .index i, .field "device"] c =
      c.nbdClient[i]?.map fun n => dropNul n.device := by
  rw [textAt_client]
  cases c.nbdClient[i]? <;>
    simp [textIn_of_walk (NbdClient.walk_field _ _ _), textIn_string]

/-- The export of a client, if it names one. -/
theorem textAt_export :
    textAt D [.field "nbd-client", .index i, .field "export"] c =
      (c.nbdClient[i]?.bind NbdClient.exportName).map dropNul := by
  rw [textAt_client]
  cases c.nbdClient[i]? with
  | none => rfl
  | some n =>
      cases h : n.exportName <;>
        simp [textIn_of_walk (NbdClient.walk_field _ _ _), textIn_string, h]

/-- The timeout of a client, if it has one. -/
theorem textAt_timeout :
    textAt D [.field "nbd-client", .index i, .field "timeout"] c =
      (c.nbdClient[i]?.bind NbdClient.timeout).map fun t => toString t.toNat := by
  rw [textAt_client]
  cases c.nbdClient[i]? with
  | none => rfl
  | some n =>
      cases h : n.timeout <;>
        simp [textIn_of_walk (NbdClient.walk_field _ _ _), textIn_nat, h]

/-- The name of a pool. -/
theorem textAt_pool :
    textAt D [.field "zfs-mount", .index i, .field "name"] c =
      c.zfsMount[i]?.map fun z => dropNul z.name := by
  rw [textAt, textIn_element D (Config.walk_zfsMount c)]
  cases c.zfsMount[i]? with
  | none => rfl
  | some z =>
      rw [Option.bind_some, textIn, ZfsMount.codec, walk_struct (by decide)]
      simp only [Fields.required, Fields.cons, Fields.nil, lookup_entry]
      simp [walkSegments, leafOf, Leaf.text, printed, Codec.string]

/-- The count of the clients, which is not set to zero. -/
theorem textAt_clientCount :
    textAt D [.field "nbd-client"] c =
      if c.nbdClient.length = 0 then none else some (toString c.nbdClient.length) := by
  rw [textAt, textIn_count D (Config.walk_nbdClient c)]

/-- The count of the pools. -/
theorem textAt_poolCount :
    textAt D [.field "zfs-mount"] c =
      if c.zfsMount.length = 0 then none else some (toString c.zfsMount.length) := by
  rw [textAt, textIn_count D (Config.walk_zfsMount c)]

end

/-! ## what is found -/

/-- A length is found when none of an earlier configuration stands in for it. -/
theorem count_iff (earlier : List Config) (c : Config) (len : Config → Nat)
    (text : Config → Option String)
    (htext : ∀ c, text c = if len c = 0 then none else some (toString (len c))) :
    number (orDefault "0" ((text c).or (lastSet earlier text))) = len c ↔
      (len c = 0 → ∀ c' ∈ earlier, len c' = 0) := by
  have hnumber : ∀ n : Nat, number (orDefault "0" (some (toString n))) = n := by
    intro n
    rw [orDefault, if_neg (toString_ne_empty n)]
    exact number_repr n
  rw [htext c]
  by_cases hc : len c = 0
  · rw [if_pos hc, hc, Option.none_or]
    cases hlast : lastSet earlier text with
    | none =>
        have hnone := lastSet_eq_none.mp hlast
        have hzero : number (orDefault "0" none) = 0 := by decide
        refine iff_of_true hzero fun _ c' hc' => ?_
        have hc'none := hnone c' hc'
        rw [htext] at hc'none
        by_contra hne
        rw [if_neg hne] at hc'none
        cases hc'none
    | some t =>
        obtain ⟨c', hc', ht⟩ := lastSet_mem hlast
        rw [htext] at ht
        have hne : len c' ≠ 0 := by
          intro hzero
          rw [if_pos hzero] at ht
          cases ht
        rw [if_neg hne] at ht
        cases ht
        rw [hnumber]
        exact iff_of_false hne fun h => hne (h rfl c' hc')
  · rw [if_neg hc, Option.some_or, hnumber]
    exact iff_of_true rfl fun h => absurd h hc

/-- A list read by index is the list. -/
theorem range_map_eq_iff {α β : Type} (m : Nat) (f : Nat → β) (l : List α) (g : α → β) :
    (List.range m).map f = l.map g ↔
      m = l.length ∧ ∀ (i : Nat) (x : α), l[i]? = some x → f i = g x := by
  constructor
  · intro h
    have hlen : m = l.length := by simpa using congrArg List.length h
    refine ⟨hlen, fun i x hi => ?_⟩
    have hlt := (List.getElem?_eq_some_iff.mp hi).1
    have hget := congrArg (·[i]?) h
    simpa [List.getElem?_range (hlen ▸ hlt), hi] using hget
  · rintro ⟨rfl, h⟩
    refine List.ext_getElem? fun i => ?_
    rcases Nat.lt_or_ge i l.length with hlt | hge
    · have hi := List.getElem?_eq_getElem hlt
      simp [List.getElem?_range hlt, hi, h i _ hi]
    · simp [hge]

/-- An old text shows through unless there is a new one, or it is the default
anyway. -/
theorem orDefault_or_iff (d : String) (a b : Option String) :
    orDefault d (a.or b) = orDefault d a ↔ (a = none → ∀ t, b = some t → t = "" ∨ t = d) := by
  cases a with
  | some s => simp
  | none =>
      cases b with
      | none => simp
      | some t => by_cases h : t = "" <;> simp [orDefault, h]

/-- The variable of a field of a client. -/
theorem varName_client (i : Nat) (k : String) :
    clientVar i (mangle k) = varName [.field "nbd-client", .index i, .field k] false := by
  have hsection : mangle "nbd-client" ++ "_" = "NBD_CLIENT_" := by decide
  rw [varName_element, hsection, clientVar]

/-- The variable of a pool. -/
theorem varName_pool (i : Nat) :
    "ZFS_MOUNT_" ++ (toString i ++ "_NAME") =
      varName [.field "zfs-mount", .index i, .field "name"] false := by
  have hsection : mangle "zfs-mount" ++ "_" = "ZFS_MOUNT_" := by decide
  have hfield : "_" ++ mangle "name" = "_NAME" := by decide
  rw [varName_element, hsection, hfield]

section

variable (D : Display) (earlier : List Config) (c : Config)

/-- A field of a client, after some calls. -/
theorem valueOf_clientVar (i : Nat) (k : String)
    (h : HasSlot Config.ty [.field "nbd-client", .index i, .field k] false) :
    valueOf (log D earlier ++ sectionVars D c "nbd-client") (clientVar i (mangle k)) =
      (textAt D [.field "nbd-client", .index i, .field k] c).or
        (lastSet earlier (textAt D [.field "nbd-client", .index i, .field k])) := by
  rw [varName_client]
  exact valueOf_clients D earlier _ _ c h rfl

/-- When a client is read as it is configured. -/
theorem readClient_iff {i : Nat} {n : NbdClient} (hn : c.nbdClient[i]? = some n) :
    readClient (log D earlier ++ sectionVars D c "nbd-client") i = Client.configured n ↔
      (n.exportName = none → ∀ e,
        lastSet earlier (fun c' => c'.nbdClient[i]?.bind NbdClient.exportName) = some e →
          dropNul e = "" ∨ dropNul e = "export") ∧
      (n.timeout = none → ∀ t,
        lastSet earlier (fun c' => c'.nbdClient[i]?.bind NbdClient.timeout) = some t → t = 180) := by
  have haddr := valueOf_clientVar D earlier c i "address" ⟨.string, rfl, rfl, rfl⟩
  have hport := valueOf_clientVar D earlier c i "port" ⟨.unsigned 16, rfl, rfl, rfl⟩
  have hdev := valueOf_clientVar D earlier c i "device" ⟨.string, rfl, rfl, rfl⟩
  have hname := valueOf_clientVar D earlier c i "export" ⟨.string, rfl, rfl, rfl⟩
  have htmo := valueOf_clientVar D earlier c i "timeout" ⟨.unsigned 16, rfl, rfl, rfl⟩
  rw [show mangle "address" = "ADDRESS" by decide, textAt_address, hn] at haddr
  rw [show mangle "port" = "PORT" by decide, textAt_port, hn] at hport
  rw [show mangle "device" = "DEVICE" by decide, textAt_device, hn] at hdev
  rw [show mangle "export" = "EXPORT" by decide, textAt_export, hn, Option.bind_some] at hname
  rw [show mangle "timeout" = "TIMEOUT" by decide, textAt_timeout, hn, Option.bind_some] at htmo
  rw [show textAt D [.field "nbd-client", .index i, .field "export"] = _ from
    funext fun c' => textAt_export D c' i, lastSet_map] at hname
  rw [show textAt D [.field "nbd-client", .index i, .field "timeout"] = _ from
    funext fun c' => textAt_timeout D c' i, lastSet_map] at htmo
  have h180 : ∀ t : UInt16, toString t.toNat = "" ∨ toString t.toNat = "180" ↔ t = 180 := by
    intro t
    have hnumber := number_repr t.toNat
    constructor
    · rintro (h | h) <;> rw [show t.toNat.repr = toString t.toNat from rfl, h] at hnumber
      · exact absurd h (toString_ne_empty t.toNat)
      · rw [show number "180" = 180 by decide] at hnumber
        exact UInt16.toNat_inj.mp hnumber.symm
    · rintro rfl
      exact Or.inr rfl
  rw [readClient, Client.configured, Client.mk.injEq, deref, deref, deref, derefOr, derefOr,
    haddr, hport, hdev, hname, htmo, orDefault_or_iff, orDefault_or_iff]
  simp [← h180]

/-- When all clients are. -/
theorem readClients_iff :
    readClients (log D earlier ++ sectionVars D c "nbd-client") = (configured c).clients ↔
      (c.nbdClient = [] → ∀ c' ∈ earlier, c'.nbdClient = []) ∧
      ∀ (i : Nat) (n : NbdClient), c.nbdClient[i]? = some n →
        (n.exportName = none → ∀ e,
          lastSet earlier (fun c' => c'.nbdClient[i]?.bind NbdClient.exportName) = some e →
            dropNul e = "" ∨ dropNul e = "export") ∧
        (n.timeout = none → ∀ t,
          lastSet earlier (fun c' => c'.nbdClient[i]?.bind NbdClient.timeout) = some t →
            t = 180) := by
  have hcount := valueOf_clients D earlier [.field "nbd-client"] true c
    ⟨NbdClient.codec.array.ty, rfl, rfl, rfl⟩ rfl
  rw [show varName [.field "nbd-client"] true = "NBD_CLIENT_COUNT" by decide] at hcount
  have hlength := count_iff earlier c (fun c' => c'.nbdClient.length)
    (textAt D [.field "nbd-client"]) (textAt_clientCount D)
  rw [readClients, configured, range_map_eq_iff, derefOr, hcount, hlength]
  simp only [List.length_eq_zero_iff]
  refine and_congr_right fun _ => ?_
  refine forall_congr' fun i => forall_congr' fun n => ?_
  exact imp_congr_right fun hn => readClient_iff D earlier c hn

/-- When the pools are. -/
theorem readPools_iff :
    readPools (log D (earlier ++ [c])) = (configured c).pools ↔
      (c.zfsMount = [] → ∀ c' ∈ earlier, c'.zfsMount = []) := by
  have hcount := valueOf_pools D earlier [.field "zfs-mount"] true c
    ⟨ZfsMount.codec.array.ty, rfl, rfl, rfl⟩ rfl
  rw [show varName [.field "zfs-mount"] true = "ZFS_MOUNT_COUNT" by decide] at hcount
  have hlength := count_iff earlier c (fun c' => c'.zfsMount.length)
    (textAt D [.field "zfs-mount"]) (textAt_poolCount D)
  rw [readPools, configured, range_map_eq_iff, derefOr, hcount, hlength]
  simp only [List.length_eq_zero_iff]
  refine and_iff_left_of_imp fun _ => ?_
  intro i z hz
  -- a name is always written, so an old one never shows through
  have hname := valueOf_pools D earlier [.field "zfs-mount", .index i, .field "name"] false c
    ⟨.string, rfl, rfl, rfl⟩ rfl
  rw [← varName_pool, textAt_pool, hz] at hname
  rw [deref, hname]
  simp

/-- What `discover` finds after other configurations. -/
theorem discover_log :
    discover D c (log D earlier) =
      some (⟨readClients (log D earlier ++ sectionVars D c "nbd-client"),
        readPools (log D (earlier ++ [c]))⟩, log D (earlier ++ [c])) := by
  have hlog : log D (earlier ++ [c]) =
      log D earlier ++ sectionVars D c "nbd-client" ++ sectionVars D c "zfs-mount" := by
    simp [log]
  rw [hlog, discover, evalOutput_listOutput, Option.bind_eq_bind, Option.bind_some,
    evalOutput_listOutput]
  rfl

/-- What one call finds, after others. -/
theorem setup_iff :
    (⟨readClients (log D earlier ++ sectionVars D c "nbd-client"),
      readPools (log D (earlier ++ [c]))⟩ : Setup) = configured c ↔ Fresh earlier c := by
  rw [show configured c = ⟨(configured c).clients, (configured c).pools⟩ from rfl,
    Setup.mk.injEq, readClients_iff, readPools_iff]
  constructor
  · rintro ⟨⟨hclients, hfields⟩, hpools⟩
    exact ⟨hclients, hpools, fun i n hn => (hfields i n hn).1, fun i n hn => (hfields i n hn).2⟩
  · rintro ⟨hclients, hpools, hexports, htimeouts⟩
    exact ⟨⟨hclients, fun i n hn => ⟨hexports i n hn, htimeouts i n hn⟩⟩, hpools⟩

end

/-- When it finds what is configured, time after time. -/
theorem discovers_log (D : Display) (cs earlier : List Config) :
    discovers D cs (log D earlier) = some (cs.map configured) ↔
      ∀ pre c post, cs = pre ++ c :: post → Fresh (earlier ++ pre) c := by
  induction cs generalizing earlier with
  | nil => simp [discovers]
  | cons c cs ih =>
      have hhead := setup_iff D earlier c
      have htail := ih (earlier ++ [c])
      rw [discovers, discover_log, Option.bind_eq_bind, Option.bind_some]
      constructor
      · intro h pre c' post heq
        obtain ⟨setups, hsetups, heq'⟩ := Option.bind_eq_some_iff.mp h
        have hcons := List.cons.inj (Option.some.inj heq')
        rw [hcons.2] at hsetups
        cases pre with
        | nil =>
            cases heq
            rw [List.append_nil]
            exact hhead.mp hcons.1
        | cons p pre =>
            obtain ⟨rfl, rfl⟩ := List.cons.inj heq
            have hfresh := htail.mp hsetups pre c' post rfl
            simpa using hfresh
      · intro h
        have hfirst := hhead.mpr (by simpa using h [] c cs rfl)
        have hrest := htail.mpr fun pre c' post heq => by
          have hfresh := h (c :: pre) c' post (by rw [heq]; rfl)
          simpa using hfresh
        rw [hfirst]
        simp [hrest]

/-- **What the daemon works with.**  Over a sequence of configurations, each
call of `discover` finds what the configuration of its time says, exactly when
every configuration of the sequence is fresh after the ones before it. -/
theorem discovers_eq_iff (D : Display) (cs : List Config) :
    discovers D cs [] = some (cs.map configured) ↔
      ∀ earlier c later, cs = earlier ++ c :: later → Fresh earlier c := by
  have hlog := discovers_log D cs []
  simpa [log] using hlog

/-- One device. -/
def oneClient : Config :=
  { Config.empty with
    nbdClient := [⟨"10.0.0.1", 10809, "/dev/nbd0", none, none⟩] }

/-- It is still there when its section is gone. -/
theorem client_lingers :
    ¬ ∀ (D : Display) (cs : List Config), discovers D cs [] = some (cs.map configured) := by
  intro h
  have hfresh := (discovers_log noDisplay [oneClient, Config.empty] []).mp
    (by simpa [log] using h noDisplay [oneClient, Config.empty])
  have hnone := (hfresh [oneClient] Config.empty [] rfl).clients rfl oneClient (by simp)
  cases hnone

end Zebrafish.System.NbdHeal
