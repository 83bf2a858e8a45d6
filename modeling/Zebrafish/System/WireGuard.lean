import Zebrafish.Lib.Echo
import Zebrafish.ConfigTool.Variables

/-!
# Zebrafish.System.WireGuard

The files of the WireGuard tunnels (`create_wg_configs` in `init.d/S44wg`).

The script works with the variables of the section `wg`, evaluated again before
each interface.  `writeConfigs_spec` says what it writes: for every interface
that it comes to the file `fileOf` makes of its configuration.
-/

namespace Zebrafish.System.WireGuard

open Toml Shell ConfigTool

/-! ## the script -/

/-- A file that is written. -/
structure File where
  path : String
  content : List Char

/-- `WG_COUNT=`. -/
def countWord : List Char := ['W', 'G', '_', 'C', 'O', 'U', 'N', 'T', '=']

/-- `wg_count`, and the variables after that. -/
def wgCount (D : Display) (c : Config) (vars : Env) : Option (Nat × Env) :=
  let count := grepCount countWord (listOutput D c "wg").toList
  if count = 0 then do
    let vars ← evalOutput vars (listOutput D c "wg")
    pure (number (derefOr vars "WG_COUNT" "0"), vars)
  else some (count, vars)

def confPath (interface : String) : String := "/etc/wireguard/" ++ interface ++ ".conf"

def createWgConfig (interface privateKey intAddress intPort peerInfo : String) : File where
  path := confPath interface
  content :=
    echoE .plain ("[Interface]\\nMTU = 1420\\nPrivateKey = " ++ privateKey ++ "\\nAddress = " ++
      intAddress ++ "\\nListenPort = " ++ intPort ++ "\\n\\n" ++ peerInfo).toList

def wgVar (i : Nat) (field : String) : String := "WG_" ++ toString i ++ "_" ++ field

def peerVar (i p : Nat) (field : String) : String :=
  "WG_" ++ toString i ++ "_PEERS_" ++ toString p ++ "_" ++ field

/-- One more allowed IP. -/
def addIp (ips ip : String) : String := if ips = "" then ip else ips ++ "," ++ ip

def allowedIps (vars : Env) (i p : Nat) : String :=
  (List.range (number (derefOr vars (peerVar i p "ALLOWED_IPS_COUNT") "0"))).foldl
    (fun ips a => addIp ips (deref vars (peerVar i p ("ALLOWED_IPS_" ++ toString a)))) ""

/-- One more peer.  The source also has the name of its keepalive variable, but
does not look at it. -/
def addPeer (info publicKey allowedIps endpoint : String) : String :=
  let info := if info = "" then info else info ++ "\\n\\n"
  let info := info ++ "[Peer]\\nPublicKey = " ++ publicKey ++ "\\n"
  let info := info ++ "AllowedIPs = " ++ allowedIps ++ "\\nPersistentKeepalive = 25"
  if endpoint = "" then info else info ++ "\\nEndpoint = " ++ endpoint

def peerInfo (vars : Env) (i : Nat) : String :=
  (List.range (number (derefOr vars (wgVar i "PEERS_COUNT") "0"))).foldl
    (fun info p => addPeer info (deref vars (peerVar i p "PUBLIC_KEY")) (allowedIps vars i p)
      (deref vars (peerVar i p "ENDPOINT"))) ""

/-- The file of an interface. -/
def interfaceFile (vars : Env) (i : Nat) : File :=
  createWgConfig (derefOr vars (wgVar i "NAME") ("wg" ++ toString i))
    (deref vars (wgVar i "PRIVATE_KEY")) (deref vars (wgVar i "ADDRESS"))
    (deref vars (wgVar i "LISTEN_PORT")) (peerInfo vars i)

/-- What the script has written, and whether it got to its end: it stops where
it cannot write a file. -/
structure Written where
  files : List File
  finished : Bool

def writeConfigs (canWrite : String → Bool) (D : Display) (c : Config) :
    List Nat → Env → Option Written
  | [], _ => some ⟨[], true⟩
  | i :: rest, vars => do
      let vars ← evalOutput vars (listOutput D c "wg")
      let file := interfaceFile vars i
      if canWrite file.path then
        let written ← writeConfigs canWrite D c rest vars
        pure ⟨file :: written.files, written.finished⟩
      else pure ⟨[], false⟩

/-- `create_wg_configs`, in a fresh shell. -/
def createWgConfigs (canWrite : String → Bool) (D : Display) (c : Config) : Option Written := do
  let (count, vars) ← wgCount D c []
  writeConfigs canWrite D c (List.range count) vars

/-! ## the variables -/

/-- A shell that has evaluated nothing but the section so far. -/
def Quiet (D : Display) (c : Config) (vars : Env) : Prop :=
  ∀ path count, HasSlot Config.ty path count →
    valueOf vars (varName path count) = none ∨
      path.head? = some (.field "wg") ∧
        valueOf vars (varName path count) = textAt D path c

/-- A shell that has evaluated the section. -/
def Sees (D : Display) (c : Config) (vars : Env) : Prop :=
  ∀ path count, HasSlot Config.ty path count → path.head? = some (.field "wg") →
    valueOf vars (varName path count) = textAt D path c

section

variable {D : Display} {c : Config} {vars : Env}

theorem Quiet.nil : Quiet D c [] := fun _ _ _ => Or.inl rfl

/-- Once evaluated, the variables are those of the configuration. -/
theorem Quiet.sees (h : Quiet D c vars) : Sees D c (vars ++ sectionVars D c "wg") := by
  intro path count hslot hhead
  rw [valueOf_append, valueOf_sectionVars D c "wg" hslot, if_pos hhead]
  rcases h path count hslot with hnone | ⟨_, hold⟩
  · rw [hnone, Option.or_none]
  · rw [hold, Option.or_self]

/-- Evaluating the section again keeps them so. -/
theorem Quiet.eval (h : Quiet D c vars) : Quiet D c (vars ++ sectionVars D c "wg") := by
  intro path count hslot
  by_cases hhead : path.head? = some (.field "wg")
  · exact Or.inr ⟨hhead, h.sees path count hslot hhead⟩
  · rw [valueOf_append, valueOf_sectionVars D c "wg" hslot, if_neg hhead, Option.none_or]
    exact h path count hslot

end

/-! ## interfaces -/

/-- The section `wg`, as it is walked. -/
theorem Config.walk_wg (c : Config) (tail : List Segment) :
    walkSegments (.field "wg" :: tail) c.view =
      (if c.wg.isEmpty then none else some (WireGuardInterface.codec.array.ser c.wg)).bind
        (walkSegments tail) := by
  rw [Config.view, Config.codec, walk_struct (by decide +kernel)]
  simp only [Fields.optional, Fields.vec, Fields.cons, Fields.nil, lookup_entry]
  simp

/-- The fields of an interface. -/
theorem WireGuardInterface.walk_field (w : WireGuardInterface) (k : String)
    (tail : List Segment) :
    walkSegments (.field k :: tail) (WireGuardInterface.codec.ser w) =
      (if k = "name" then w.name.map .string
      else if k = "private_key" then w.privateKey.map .string
      else if k = "address" then w.address.map .string
      else if k = "listen_port" then w.listenPort.map fun p => .integer p.toNat
      else if k = "peers" then
        if w.peers.isEmpty then none else some (WireGuardPeer.codec.array.ser w.peers)
      else none).bind (walkSegments tail) := by
  rw [WireGuardInterface.codec, walk_struct (by decide +kernel)]
  simp only [Fields.optional, Fields.vec, Fields.cons, Fields.nil, lookup_entry]
  congr 1
  split_ifs <;> simp_all [Codec.string, Codec.u16, Codec.unsigned]

/-- The fields of a peer. -/
theorem WireGuardPeer.walk_field (p : WireGuardPeer) (k : String) (tail : List Segment) :
    walkSegments (.field k :: tail) (WireGuardPeer.codec.ser p) =
      (if k = "public_key" then some (.string p.publicKey)
      else if k = "endpoint" then p.endpoint.map .string
      else if k = "allowed_ips" then
        if p.allowedIps.isEmpty then none else some (Codec.string.array.ser p.allowedIps)
      else if k = "persistent_keepalive" then p.persistentKeepalive.map fun t => .integer t.toNat
      else none).bind (walkSegments tail) := by
  rw [WireGuardPeer.codec, walk_struct (by decide +kernel)]
  simp only [Fields.required, Fields.optional, Fields.vec, Fields.cons, Fields.nil, lookup_entry]
  congr 1
  split_ifs <;> simp_all [Codec.string, Codec.u16, Codec.unsigned]

/-- A text, or nothing. -/
def textOf (s : Option String) : String := (s.map dropNul).getD ""

def ipsText (ips : List String) : String :=
  ips.foldl (fun text ip => addIp text (dropNul ip)) ""

def peersText (peers : List WireGuardPeer) : String :=
  peers.foldl (fun info p =>
    addPeer info (dropNul p.publicKey) (ipsText p.allowedIps) (textOf p.endpoint)) ""

/-- The file of an interface, by what is configured. -/
def fileOf (i : Nat) (w : WireGuardInterface) : File :=
  createWgConfig (orDefault ("wg" ++ toString i) (w.name.map dropNul)) (textOf w.privateKey)
    (textOf w.address) ((w.listenPort.map fun p => toString p.toNat).getD "") (peersText w.peers)

/-- A loop over indices is one over the list. -/
theorem foldl_range {α β : Type} {F : β → Nat → β} {G : β → α → β} {l : List α}
    (h : ∀ b (i : Nat) x, l[i]? = some x → F b i = G b x) (b : β) :
    (List.range l.length).foldl F b = l.foldl G b := by
  induction l using List.reverseRecOn with
  | nil => simp
  | append_singleton l x ih =>
      have hinit := ih fun b i y hy =>
        h b i y (by rw [List.getElem?_append_left (List.getElem?_eq_some_iff.mp hy).1, hy])
      have hlast := h (l.foldl G b) l.length x (by simp)
      simp [List.range_succ, hinit, hlast]

section

variable {D : Display} {c : Config} {vars : Env}

/-- The variable at a path in an interface. -/
theorem Sees.valueOf_wg (h : Sees D c vars) {i : Nat} {w : WireGuardInterface}
    (hw : c.wg[i]? = some w) (tail : List Segment) (count : Bool)
    (hslot : HasSlot Config.ty (.field "wg" :: .index i :: tail) count) :
    valueOf vars (varName (.field "wg" :: .index i :: tail) count) =
      textIn D tail (WireGuardInterface.codec.ser w) := by
  rw [h _ _ hslot rfl, textAt, textIn_element D (Config.walk_wg c), hw, Option.bind_some]

/-- And at one in a peer. -/
theorem Sees.valueOf_peer (h : Sees D c vars) {i p : Nat} {w : WireGuardInterface}
    (hw : c.wg[i]? = some w) {peer : WireGuardPeer} (hp : w.peers[p]? = some peer)
    (tail : List Segment) (count : Bool)
    (hslot : HasSlot Config.ty
      (.field "wg" :: .index i :: .field "peers" :: .index p :: tail) count) :
    valueOf vars (varName (.field "wg" :: .index i :: .field "peers" :: .index p :: tail) count) =
      textIn D tail (WireGuardPeer.codec.ser peer) := by
  rw [h.valueOf_wg hw _ count hslot, textIn, WireGuardInterface.walk_field]
  simp only [String.reduceEq, if_false, if_true]
  rw [walk_vec, hp, Option.bind_some, textIn]

/-- The variable of a field of an interface. -/
theorem wgVar_eq (i : Nat) (k : String) (tail : List Segment) (count : Bool) :
    wgVar i (varName (.field k :: tail) count) =
      varName (.field "wg" :: .index i :: .field k :: tail) count := by
  have hname : varName (.field "wg" :: .index i :: .field k :: tail) count =
      mangle "wg" ++ "_" ++ (toString i ++ "_" ++ varName (.field k :: tail) count) := rfl
  have hmangle : mangle "wg" = "WG" := by decide
  rw [hname, hmangle, wgVar]
  apply String.toList_inj.mp
  simp

/-- The variable of a field of a peer. -/
theorem peerVar_eq (i p : Nat) (k : String) (tail : List Segment) (count : Bool) :
    peerVar i p (varName (.field k :: tail) count) =
      varName (.field "wg" :: .index i :: .field "peers" :: .index p :: .field k :: tail)
        count := by
  have hname : varName (.field "peers" :: .index p :: .field k :: tail) count =
      mangle "peers" ++ "_" ++ (toString p ++ "_" ++ varName (.field k :: tail) count) := rfl
  have hmangle : mangle "peers" = "PEERS" := by decide
  rw [← wgVar_eq, hname, hmangle, peerVar, wgVar]
  apply String.toList_inj.mp
  simp

/-- The variable of an address. -/
theorem ipVar_eq (a : Nat) :
    varName [.field "allowed_ips", .index a] false = "ALLOWED_IPS_" ++ toString a := by
  have hname : varName [.field "allowed_ips", .index a] false =
      mangle "allowed_ips" ++ "_" ++ toString a := rfl
  have hmangle : mangle "allowed_ips" = "ALLOWED_IPS" := by decide
  rw [hname, hmangle]
  apply String.toList_inj.mp
  simp

/-- A variable has the text of its field. -/
theorem Sees.deref_wg (h : Sees D c vars) {i : Nat} {w : WireGuardInterface}
    (hw : c.wg[i]? = some w) (k : String)
    (hslot : HasSlot Config.ty [.field "wg", .index i, .field k] false) :
    valueOf vars (wgVar i (varName [.field k] false)) =
      textIn D [.field k] (WireGuardInterface.codec.ser w) := by
  rw [wgVar_eq, h.valueOf_wg hw _ false hslot]

/-- The addresses of a peer. -/
theorem Sees.allowedIps_eq (h : Sees D c vars) {i p : Nat} {w : WireGuardInterface}
    (hw : c.wg[i]? = some w) {peer : WireGuardPeer} (hp : w.peers[p]? = some peer) :
    allowedIps vars i p = ipsText peer.allowedIps := by
  have hcount := h.valueOf_peer hw hp [.field "allowed_ips"] true
    ⟨Codec.string.array.ty, rfl, rfl, rfl⟩
  rw [← peerVar_eq, show varName [.field "allowed_ips"] true = "ALLOWED_IPS_COUNT" by decide,
    textIn_of_walk (WireGuardPeer.walk_field _ _ _)] at hcount
  simp only [String.reduceEq, if_false, if_true, textIn_length] at hcount
  rw [allowedIps, derefOr, hcount, number_length, ipsText]
  refine foldl_range ?_ ""
  intro text a ip ha
  have hip := h.valueOf_peer hw hp [.field "allowed_ips", .index a] false
    ⟨.string, rfl, rfl, rfl⟩
  rw [← peerVar_eq, ipVar_eq, textIn, WireGuardPeer.walk_field] at hip
  simp only [String.reduceEq, if_false, if_true] at hip
  rw [walk_vec, ha, Option.bind_some, ← textIn, Codec.string, textIn_string] at hip
  rw [deref, hip, Option.getD_some]

/-- The peers of an interface. -/
theorem Sees.peerInfo_eq (h : Sees D c vars) {i : Nat} {w : WireGuardInterface}
    (hw : c.wg[i]? = some w) : peerInfo vars i = peersText w.peers := by
  have hcount := h.valueOf_wg hw [.field "peers"] true
    ⟨WireGuardPeer.codec.array.ty, rfl, rfl, rfl⟩
  rw [← wgVar_eq, show varName [.field "peers"] true = "PEERS_COUNT" by decide,
    textIn_of_walk (WireGuardInterface.walk_field _ _ _)] at hcount
  simp only [String.reduceEq, if_false, if_true, textIn_length] at hcount
  rw [peerInfo, derefOr, hcount, number_length, peersText]
  refine foldl_range ?_ ""
  intro info p peer hp
  have hkey := h.valueOf_peer hw hp [.field "public_key"] false
    ⟨.string, rfl, rfl, rfl⟩
  have hend := h.valueOf_peer hw hp [.field "endpoint"] false
    ⟨.string, rfl, rfl, rfl⟩
  rw [← peerVar_eq, show varName [.field "public_key"] false = "PUBLIC_KEY" by decide,
    textIn_of_walk (WireGuardPeer.walk_field _ _ _)] at hkey
  rw [← peerVar_eq, show varName [.field "endpoint"] false = "ENDPOINT" by decide,
    textIn_of_walk (WireGuardPeer.walk_field _ _ _)] at hend
  simp only [String.reduceEq, if_false, if_true, Option.bind_some, textIn_string] at hkey hend
  rw [h.allowedIps_eq hw hp, deref, deref, hkey, hend, textOf]
  cases peer.endpoint <;> simp [textIn_string]

/-- The file that is written for an interface. -/
theorem Sees.interfaceFile_eq (h : Sees D c vars) {i : Nat} {w : WireGuardInterface}
    (hw : c.wg[i]? = some w) : interfaceFile vars i = fileOf i w := by
  have hname := h.deref_wg hw "name" ⟨.string, rfl, rfl, rfl⟩
  have hkey := h.deref_wg hw "private_key" ⟨.string, rfl, rfl, rfl⟩
  have haddr := h.deref_wg hw "address" ⟨.string, rfl, rfl, rfl⟩
  have hport := h.deref_wg hw "listen_port" ⟨.unsigned 16, rfl, rfl, rfl⟩
  rw [show varName [.field "name"] false = "NAME" by decide,
    textIn_of_walk (WireGuardInterface.walk_field _ _ _)] at hname
  rw [show varName [.field "private_key"] false = "PRIVATE_KEY" by decide,
    textIn_of_walk (WireGuardInterface.walk_field _ _ _)] at hkey
  rw [show varName [.field "address"] false = "ADDRESS" by decide,
    textIn_of_walk (WireGuardInterface.walk_field _ _ _)] at haddr
  rw [show varName [.field "listen_port"] false = "LISTEN_PORT" by decide,
    textIn_of_walk (WireGuardInterface.walk_field _ _ _)] at hport
  simp only [String.reduceEq, if_false, if_true] at hname hkey haddr hport
  rw [interfaceFile, derefOr, deref, deref, deref, hname, hkey, haddr, hport, h.peerInfo_eq hw,
    fileOf, textOf, textOf]
  cases w.name <;> cases w.privateKey <;> cases w.address <;> cases w.listenPort <;>
    simp [textIn_string, textIn_nat]

/-- Where a file goes. -/
def pathOf (c : Config) (i : Nat) : String :=
  confPath (orDefault ("wg" ++ toString i) ((c.wg[i]?.bind WireGuardInterface.name).map dropNul))

/-- Also that of an interface there is not. -/
theorem Sees.path_eq (h : Sees D c vars) (i : Nat) : (interfaceFile vars i).path = pathOf c i := by
  cases hw : c.wg[i]? with
  | some w =>
      rw [h.interfaceFile_eq hw, pathOf, hw]
      rfl
  | none =>
      have hname := h [.field "wg", .index i, .field "name"] false ⟨.string, rfl, rfl, rfl⟩ rfl
      rw [← wgVar_eq, show varName [.field "name"] false = "NAME" by decide, textAt, textIn,
        Config.walk_wg, walk_vec, hw] at hname
      rw [interfaceFile, createWgConfig, derefOr, hname, pathOf, hw]
      rfl

/-- The files that are written: up to the first one that cannot be, and each
for its interface. -/
theorem writeConfigs_spec (canWrite : String → Bool) (h : Quiet D c vars) (is : List Nat) :
    ∃ written, writeConfigs canWrite D c is vars = some written ∧
      written.finished = is.all (fun i => canWrite (pathOf c i)) ∧
      written.files.map (·.path) = (is.map (pathOf c)).takeWhile canWrite ∧
      ∀ (j : Nat) f, written.files[j]? = some f →
        ∃ i, is[j]? = some i ∧ ∀ w, c.wg[i]? = some w → f = fileOf i w := by
  induction is generalizing vars with
  | nil => exact ⟨⟨[], true⟩, rfl, rfl, rfl, by simp⟩
  | cons i is ih =>
      obtain ⟨written, hwritten, hfinished, hpaths, hfiles⟩ := ih h.eval
      have hpath := h.sees.path_eq i
      rw [writeConfigs, evalOutput_listOutput, Option.bind_eq_bind, Option.bind_some]
      by_cases hcan : canWrite (pathOf c i)
      · refine ⟨⟨interfaceFile (vars ++ sectionVars D c "wg") i :: written.files,
          written.finished⟩, ?_, ?_, ?_, ?_⟩
        · simp [hpath, hcan, hwritten]
        · simp [hcan, hfinished]
        · simp [hpath, hcan, hpaths]
        · intro j f hj
          cases j with
          | zero =>
              cases hj
              exact ⟨i, rfl, fun w hw => h.sees.interfaceFile_eq hw⟩
          | succ j => exact hfiles j f hj
      · exact ⟨⟨[], false⟩, by simp [hpath, hcan], by simp [hcan], by simp [hcan], by simp⟩

end

end Zebrafish.System.WireGuard
