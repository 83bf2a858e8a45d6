import Zebrafish.Lib.Ini
import Zebrafish.System.Tunnels

/-!
# Zebrafish.System.TunnelFile

What a file of `create_wg_configs` says, read as WireGuard reads it.

The file is written line by line behind the backs of `echo -e` and of the
loops: `content_fileOf` has its lines.  `tunnel_read_iff` says which interfaces
come back.
-/

namespace Zebrafish.System.WireGuard

open Toml Shell ConfigTool

/-! ## reading -/

/-- A peer, as a file has it. -/
structure TunnelPeer where
  publicKey : Option (List Char)
  allowedIps : List (List Char)
  endpoint : Option (List Char)
  keepalive : Option Nat

/-- A tunnel, as a file has it. -/
structure Tunnel where
  privateKey : Option (List Char)
  address : Option (List Char)
  listenPort : Option Nat
  peers : List TunnelPeer

abbrev Pairs : Type := List (List Char × List Char)

def readPeer (entries : Pairs) : TunnelPeer where
  publicKey := entries.lookup "PublicKey".toList
  allowedIps := (entries.lookup "AllowedIPs".toList).elim [] Ini.items
  endpoint := entries.lookup "Endpoint".toList
  keepalive := (entries.lookup "PersistentKeepalive".toList).bind Rust.parseDigits

/-- One `[Interface]`, and any number of `[Peer]`. -/
def readTunnel (text : List Char) : Option Tunnel :=
  match Ini.read (lines text) with
  | some (⟨name, entries⟩ :: peers) =>
      if name = "[Interface]".toList ∧ ∀ p ∈ peers, p.name = "[Peer]".toList then
        some {
          privateKey := entries.lookup "PrivateKey".toList
          address := entries.lookup "Address".toList
          listenPort := (entries.lookup "ListenPort".toList).bind Rust.parseDigits
          peers := peers.map fun p => readPeer p.entries }
      else none
  | _ => none

/-! ## what is configured -/

def TunnelPeer.of (p : WireGuardPeer) : TunnelPeer where
  publicKey := some p.publicKey.toList
  allowedIps := p.allowedIps.map String.toList
  endpoint := p.endpoint.map String.toList
  keepalive := some (p.persistentKeepalive.getD 25).toNat

def Tunnel.of (w : WireGuardInterface) : Tunnel where
  privateKey := w.privateKey.map String.toList
  address := w.address.map String.toList
  listenPort := w.listenPort.map UInt16.toNat
  peers := w.peers.map TunnelPeer.of

/-- A text that means itself in such a file. -/
structure Plain (s : String) : Prop where
  hash : '#' ∉ s.toList
  nul : Char.ofNat 0 ∉ s.toList
  trim : Ini.trim s.toList = s.toList

/-- A peer that can be written. -/
structure PlainPeer (p : WireGuardPeer) : Prop where
  publicKey : Plain p.publicKey
  allowedIps : ∀ ip ∈ p.allowedIps, Plain ip ∧ ip ≠ "" ∧ ',' ∉ ip.toList
  endpoint : ∀ e, p.endpoint = some e → Plain e ∧ e ≠ ""
  keepalive : ∀ t, p.persistentKeepalive = some t → t = 25

/-- A text without backslashes and newlines. -/
def OneLine (s : String) : Prop := '\\' ∉ s.toList ∧ '\n' ∉ s.toList

structure OneLinePeer (p : WireGuardPeer) : Prop where
  publicKey : OneLine p.publicKey
  allowedIps : ∀ ip ∈ p.allowedIps, OneLine ip
  endpoint : ∀ e, p.endpoint = some e → OneLine e

/-! ## lines -/

/-- Lines with the escape for a newline between them. -/
def joinLines (ls : List (List Char)) : List Char := ['\\', 'n'].intercalate ls

/-- The first line, and then the others. -/
theorem joinLines_cons {ls : List (List Char)} (h : ls ≠ []) (l : List Char) :
    joinLines (l :: ls) = l ++ '\\' :: 'n' :: joinLines ls := by
  rw [joinLines, List.intercalate_cons_of_ne_nil h, List.append_assoc]
  rfl

/-- Lines and others behind them. -/
theorem joinLines_append {a b : List (List Char)} (ha : a ≠ []) (hb : b ≠ []) :
    joinLines (a ++ b) = joinLines a ++ '\\' :: 'n' :: joinLines b :=
  Ini.intercalate_append _ ha hb

/-- `echo -e` makes them lines. -/
theorem echoE_joinLines {ls : List (List Char)} (hne : ls ≠ []) (h : ∀ l ∈ ls, '\\' ∉ l) :
    echoE .plain (joinLines ls) = unlines ls := by
  induction ls with
  | nil => exact absurd rfl hne
  | cons l ls ih =>
      obtain ⟨hl, hrest⟩ := List.forall_mem_cons.mp h
      by_cases hnil : ls = []
      · subst hnil
        have hplain := echoE_of_plain hl []
        simpa [joinLines, echoE] using hplain
      · rw [joinLines_cons hnil, echoE_of_plain hl, echoE_newline, ih hnil hrest, unlines_cons]

/-! ## peers -/

/-- The text of an endpoint, unless it is empty. -/
def endpointLine (endpoint : List Char) : List (List Char) :=
  if endpoint = [] then [] else ["Endpoint = ".toList ++ endpoint]

/-- The lines of a peer. -/
def block (publicKey ips endpoint : List Char) : List (List Char) :=
  ["[Peer]".toList, "PublicKey = ".toList ++ publicKey, "AllowedIPs = ".toList ++ ips,
    "PersistentKeepalive = 25".toList] ++ endpointLine endpoint

def blockOf (p : WireGuardPeer) : List (List Char) :=
  block (dropNul p.publicKey).toList (ipsText p.allowedIps).toList (textOf p.endpoint).toList

/-- All of them, with blank lines between. -/
def body : List WireGuardPeer → List (List Char)
  | [] => [[]]
  | [p] => blockOf p
  | p :: ps => blockOf p ++ [] :: body ps

theorem blockOf_ne_nil (p : WireGuardPeer) : blockOf p ≠ [] := by simp [blockOf, block]

theorem body_ne_nil (ps : List WireGuardPeer) : body ps ≠ [] := by
  cases ps with
  | nil => simp [body]
  | cons p ps => cases ps <;> simp [body, blockOf_ne_nil]

/-- The first peer, and then the others. -/
theorem body_cons {ps : List WireGuardPeer} (h : ps ≠ []) (p : WireGuardPeer) :
    body (p :: ps) = blockOf p ++ [] :: body ps := by
  cases ps with
  | nil => exact absurd rfl h
  | cons q ps => rfl

/-- One more peer at the end. -/
theorem body_append {ps : List WireGuardPeer} (h : ps ≠ []) (p : WireGuardPeer) :
    body (ps ++ [p]) = body ps ++ [] :: blockOf p := by
  induction ps with
  | nil => exact absurd rfl h
  | cons q ps ih =>
      by_cases hnil : ps = []
      · subst hnil
        rfl
      · rw [List.cons_append, body_cons (by simp), ih hnil, body_cons hnil]
        simp

theorem joinLines_body_ne_nil {ps : List WireGuardPeer} (h : ps ≠ []) :
    joinLines (body ps) ≠ [] := by
  have hhead : ∃ rest, body ps = "[Peer]".toList :: rest := by
    cases ps with
    | nil => exact absurd rfl h
    | cons p ps => cases ps <;> exact ⟨_, rfl⟩
  obtain ⟨rest, hrest⟩ := hhead
  by_cases hnil : rest = [] <;> simp [hrest, hnil, joinLines]

/-- What the loop adds for a peer. -/
theorem toList_addPeer (info publicKey ips endpoint : String) :
    (addPeer info publicKey ips endpoint).toList =
      (if info = "" then [] else info.toList ++ ['\\', 'n', '\\', 'n']) ++
        joinLines (block publicKey.toList ips.toList endpoint.toList) := by
  by_cases hinfo : info = "" <;> by_cases hend : endpoint = "" <;>
    simp [addPeer, block, endpointLine, joinLines, hinfo, hend]

/-- What the loop over the peers puts together. -/
theorem toList_peersText (ps : List WireGuardPeer) :
    (peersText ps).toList = joinLines (body ps) := by
  induction ps using List.reverseRecOn with
  | nil => rfl
  | append_singleton ps p ih =>
      have hfold : peersText (ps ++ [p]) = addPeer (peersText ps) (dropNul p.publicKey)
          (ipsText p.allowedIps) (textOf p.endpoint) := by
        simp [peersText]
      rw [hfold, toList_addPeer, ← blockOf]
      by_cases hnil : ps = []
      · subst hnil
        rfl
      · have hne : peersText ps ≠ "" := by
          intro hempty
          rw [hempty] at ih
          exact joinLines_body_ne_nil hnil ih.symm
        rw [if_neg hne, ih, body_append hnil, joinLines_append (body_ne_nil ps) (by simp),
          joinLines_cons (blockOf_ne_nil p)]
        simp

/-! ## the file -/

/-- The lines before the peers. -/
def head (key address port : List Char) : List (List Char) :=
  ["[Interface]".toList, "MTU = 1420".toList, "PrivateKey = ".toList ++ key,
    "Address = ".toList ++ address, "ListenPort = ".toList ++ port, []]

/-- The text of a port, unless it is not set. -/
def portOf (w : WireGuardInterface) : String := (w.listenPort.map fun p => toString p.toNat).getD ""

def fileLines (w : WireGuardInterface) : List (List Char) :=
  head (textOf w.privateKey).toList (textOf w.address).toList (portOf w).toList ++ body w.peers

/-- The file is its lines. -/
theorem content_fileOf (i : Nat) (w : WireGuardInterface) (h : ∀ l ∈ fileLines w, '\\' ∉ l) :
    (fileOf i w).content = unlines (fileLines w) := by
  have htext : ("[Interface]\\nMTU = 1420\\nPrivateKey = " ++ textOf w.privateKey ++
      "\\nAddress = " ++ textOf w.address ++ "\\nListenPort = " ++ portOf w ++ "\\n\\n" ++
        peersText w.peers).toList = joinLines (fileLines w) := by
    rw [fileLines, joinLines_append (by simp [head]) (body_ne_nil _), ← toList_peersText]
    simp [head, joinLines]
  have hne : fileLines w ≠ [] := by simp [fileLines, head]
  rw [← echoE_joinLines hne h, ← htext, fileOf, createWgConfig, portOf]

/-! ## reading it -/

/-- What is read of the lines of a peer. -/
def sectionOf (publicKey ips endpoint : List Char) : Ini.Section where
  name := "[Peer]".toList
  entries :=
    [("PublicKey".toList, Ini.shown publicKey), ("AllowedIPs".toList, Ini.shown ips),
      ("PersistentKeepalive".toList, "25".toList)] ++
        if endpoint = [] then [] else [("Endpoint".toList, Ini.shown endpoint)]

/-- An entry, as the script writes it. -/
theorem readLine_key (key line : String) (h : Ini.IsKey key.toList)
    (hline : line.toList = key.toList ++ [' ', '=', ' ']) (value : List Char) :
    Ini.readLine (line.toList ++ value) = some (.entry key.toList (Ini.shown value)) := by
  rw [hline, List.append_assoc]
  exact Ini.readLine_entry h value

/-- Two lists that are mapped. -/
theorem mapM_append {α β : Type} {f : α → Option β} {xs ys : List α} {as bs : List β}
    (hx : xs.mapM f = some as) (hy : ys.mapM f = some bs) :
    (xs ++ ys).mapM f = some (as ++ bs) := by
  rw [List.mapM_append, hx, hy]
  rfl

/-- An element and the rest of a list, mapped. -/
theorem mapM_cons {α β : Type} {f : α → Option β} {x : α} {xs : List α} {a : β} {as : List β}
    (hx : f x = some a) (hxs : xs.mapM f = some as) : (x :: xs).mapM f = some (a :: as) := by
  rw [List.mapM_cons, hx, hxs]
  rfl

/-- The lines of a peer are read. -/
theorem mapM_block (publicKey ips endpoint : List Char) :
    (block publicKey ips endpoint).mapM Ini.readLine =
      some (sectionOf publicKey ips endpoint).lines := by
  have hpeer : Ini.readLine "[Peer]".toList = some (.header "[Peer]".toList) := by decide
  have hkeep : Ini.readLine "PersistentKeepalive = 25".toList =
      some (.entry "PersistentKeepalive".toList "25".toList) := by decide
  have hkey := readLine_key "PublicKey" "PublicKey = " (by decide) (by decide) publicKey
  have hips := readLine_key "AllowedIPs" "AllowedIPs = " (by decide) (by decide) ips
  have hend := readLine_key "Endpoint" "Endpoint = " (by decide) (by decide) endpoint
  have hfirst := mapM_cons hpeer (mapM_cons hkey (mapM_cons hips (mapM_cons hkeep List.mapM_nil)))
  have hlast : (endpointLine endpoint).mapM Ini.readLine =
      some (if endpoint = [] then [] else [.entry "Endpoint".toList (Ini.shown endpoint)]) := by
    rw [endpointLine]
    split
    · rfl
    · exact mapM_cons hend List.mapM_nil
  refine (mapM_append hfirst hlast).trans (congrArg some ?_)
  cases endpoint with
  | nil => rfl
  | cons c endpoint => rfl

def sectionOfPeer (p : WireGuardPeer) : Ini.Section :=
  sectionOf (dropNul p.publicKey).toList (ipsText p.allowedIps).toList (textOf p.endpoint).toList

/-- What is read of the lines of the peers. -/
theorem mapM_body (ps : List WireGuardPeer) :
    ∃ ls, (body ps).mapM Ini.readLine = some ls ∧ Ini.group ls = ([], ps.map sectionOfPeer) := by
  have hblank : Ini.readLine [] = some .blank := by decide
  induction ps with
  | nil => exact ⟨[.blank], by decide, rfl⟩
  | cons p ps ih =>
      have hblock := mapM_block (dropNul p.publicKey).toList (ipsText p.allowedIps).toList
        (textOf p.endpoint).toList
      by_cases hnil : ps = []
      · subst hnil
        refine ⟨(sectionOfPeer p).lines ++ [], ?_, Ini.group_section _ rfl⟩
        rw [List.append_nil]
        exact hblock
      · obtain ⟨ls, hls, hgroup⟩ := ih
        have hmore : ([] :: body ps).mapM Ini.readLine = some (.blank :: ls) := by
          rw [List.mapM_cons, hblank, hls]
          rfl
        refine ⟨(sectionOfPeer p).lines ++ .blank :: ls, ?_, ?_⟩
        · rw [body_cons hnil]
          exact mapM_append hblock hmore
        · have hblankgroup : Ini.group (.blank :: ls) = Ini.group ls := rfl
          rw [Ini.group_section _ (by rw [hblankgroup, hgroup]), hblankgroup, hgroup]
          rfl

/-- What is read of a file. -/
theorem readTunnel_fileLines (w : WireGuardInterface) (h : ∀ l ∈ fileLines w, '\n' ∉ l) :
    readTunnel (unlines (fileLines w)) = some {
      privateKey := some (Ini.shown (textOf w.privateKey).toList)
      address := some (Ini.shown (textOf w.address).toList)
      listenPort := Rust.parseDigits (Ini.shown (portOf w).toList)
      peers := w.peers.map fun p => readPeer (sectionOfPeer p).entries } := by
  obtain ⟨ls, hls, hgroup⟩ := mapM_body w.peers
  have hface : Ini.readLine "[Interface]".toList = some (.header "[Interface]".toList) := by
    decide
  have hmtu : Ini.readLine "MTU = 1420".toList =
      some (.entry "MTU".toList "1420".toList) := by decide
  have hblank : Ini.readLine [] = some .blank := by decide
  have hkey := readLine_key "PrivateKey" "PrivateKey = " (by decide) (by decide)
    (textOf w.privateKey).toList
  have haddr := readLine_key "Address" "Address = " (by decide) (by decide)
    (textOf w.address).toList
  have hport := readLine_key "ListenPort" "ListenPort = " (by decide) (by decide)
    (portOf w).toList
  have hhead := mapM_cons hface (mapM_cons hmtu (mapM_cons hkey (mapM_cons haddr
    (mapM_cons hport (mapM_cons hblank List.mapM_nil)))))
  have hread : Ini.read (fileLines w) = some
      (⟨"[Interface]".toList, [("MTU".toList, "1420".toList),
        ("PrivateKey".toList, Ini.shown (textOf w.privateKey).toList),
        ("Address".toList, Ini.shown (textOf w.address).toList),
        ("ListenPort".toList, Ini.shown (portOf w).toList)]⟩ ::
          w.peers.map sectionOfPeer) := by
    rw [Ini.read, fileLines, head, mapM_append hhead hls]
    simp [Ini.group, hgroup]
  have hnames : ∀ p ∈ w.peers.map sectionOfPeer, p.name = "[Peer]".toList := by
    intro p hp
    obtain ⟨q, _, rfl⟩ := List.mem_map.mp hp
    rfl
  rw [readTunnel, lines_unlines h, hread]
  simp only [true_and]
  rw [if_pos hnames, List.map_map]
  rfl

/-! ## what comes back -/

/-- A text is read as it is just if it is plain. -/
theorem shown_dropNul_iff (s : String) :
    Ini.shown (dropNul s).toList = s.toList ↔ Plain s := by
  rw [toList_dropNul]
  constructor
  · intro h
    have hnul : Char.ofNat 0 ∉ s.toList := by
      intro hmem
      rw [← h] at hmem
      have hclean := Ini.mem_of_mem_shown hmem
      simp [clean] at hclean
    rw [clean_of_not_mem hnul] at h
    obtain ⟨hhash, htrim⟩ := Ini.shown_eq_self_iff.mp h
    exact ⟨hhash, hnul, htrim⟩
  · rintro ⟨hhash, hnul, htrim⟩
    rw [clean_of_not_mem hnul]
    exact Ini.shown_eq_self_iff.mpr ⟨hhash, htrim⟩

/-- One more address. -/
theorem ipsText_append (ips : List String) (ip : String) :
    ipsText (ips ++ [ip]) = addIp (ipsText ips) (dropNul ip) := by
  simp [ipsText]

/-- Joining addresses adds commas only. -/
theorem not_mem_ipsText {x : Char} (hx : x ≠ ',') {ips : List String}
    (h : ∀ ip ∈ ips, x ∉ (dropNul ip).toList) : x ∉ (ipsText ips).toList := by
  induction ips using List.reverseRecOn with
  | nil => simp [ipsText]
  | append_singleton ips ip ih =>
      have hinit := ih fun y hy => h y (List.mem_append_left _ hy)
      have hlast := h ip (by simp)
      rw [ipsText_append, addIp]
      split
      · exact hlast
      · simp [hinit, hlast, hx]

/-- IPs that mean themselves are put together with commas. -/
theorem ipsText_plain {ips : List String}
    (h : ∀ ip ∈ ips, Plain ip ∧ ip ≠ "" ∧ ',' ∉ ip.toList) :
    (ipsText ips).toList = [','].intercalate (ips.map String.toList) ∧
      Ini.trim (ipsText ips).toList = (ipsText ips).toList ∧ (ipsText ips = "" ↔ ips = []) := by
  induction ips using List.reverseRecOn with
  | nil => simp [ipsText]
  | append_singleton ips ip ih =>
      obtain ⟨hjoin, htrim, hempty⟩ := ih fun y hy => h y (List.mem_append_left _ hy)
      obtain ⟨hplain, hne, _⟩ := h ip (by simp)
      have hnelist : ip.toList ≠ [] := by simpa using hne
      rw [ipsText_append, addIp, dropNul_of_not_mem hplain.nul]
      by_cases hnil : ips = []
      · rw [if_pos (hempty.mpr hnil), hnil]
        exact ⟨by simp, hplain.trim, by simp [hne]⟩
      · have htext : ipsText ips ≠ "" := fun heq => hnil (hempty.mp heq)
        have hlist : (ipsText ips).toList ≠ [] := by simpa using htext
        have hwhole : (ipsText ips ++ "," ++ ip).toList =
            (ipsText ips).toList ++ ',' :: ip.toList := by
          simp
        rw [if_neg htext]
        refine ⟨?_, ?_, ?_⟩
        · rw [hwhole, hjoin, List.map_append,
            Ini.intercalate_append _ (by simpa using hnil) (by simp)]
          simp
        · rw [hwhole]
          exact Ini.trim_append htrim hlist hplain.trim hnelist ','
        · simp [htext]

/-- The addresses are read back just if they are plain and have no commas. -/
theorem items_ipsText_iff (ips : List String) :
    Ini.items (Ini.shown (ipsText ips).toList) = ips.map String.toList ↔
      ∀ ip ∈ ips, Plain ip ∧ ip ≠ "" ∧ ',' ∉ ip.toList := by
  constructor
  · intro h ip hip
    have hmem : ip.toList ∈ Ini.items (Ini.shown (ipsText ips).toList) := by
      rw [h]
      exact List.mem_map_of_mem hip
    obtain ⟨hne, htrim, hcomma, hsub⟩ := Ini.mem_items hmem
    have hnul : Char.ofNat 0 ∉ (ipsText ips).toList :=
      not_mem_ipsText (by decide) fun y _ => by simp [toList_dropNul, clean]
    exact ⟨⟨fun hc => Ini.hash_not_mem_shown _ (hsub _ hc),
      fun hc => hnul (Ini.mem_of_mem_shown (hsub _ hc)), htrim⟩, by simpa using hne, hcomma⟩
  · intro h
    obtain ⟨hjoin, htrim, _⟩ := ipsText_plain h
    have hhash : '#' ∉ (ipsText ips).toList := by
      refine not_mem_ipsText (by decide) fun ip hip hc => (h ip hip).1.hash ?_
      rw [toList_dropNul] at hc
      exact (List.mem_filter.mp hc).1
    rw [Ini.shown_eq_self_iff.mpr ⟨hhash, htrim⟩, hjoin]
    refine Ini.items_intercalate ?_
    intro text htext
    obtain ⟨ip, hip, rfl⟩ := List.mem_map.mp htext
    obtain ⟨hplain, hne, hcomma⟩ := h ip hip
    exact ⟨by simpa using hne, hplain.trim, hcomma⟩

/-- A peer is read from its section. -/
theorem readPeer_sectionOf (publicKey ips endpoint : List Char) :
    readPeer (sectionOf publicKey ips endpoint).entries =
      { publicKey := some (Ini.shown publicKey)
        allowedIps := Ini.items (Ini.shown ips)
        endpoint := if endpoint = [] then none else some (Ini.shown endpoint)
        keepalive := some 25 } := by
  cases endpoint with
  | nil => rfl
  | cons c endpoint => rfl

/-- The endpoint is read back just if it is plain and not empty. -/
theorem endpoint_iff (endpoint : Option String) :
    (if (textOf endpoint).toList = [] then none else some (Ini.shown (textOf endpoint).toList)) =
        endpoint.map String.toList ↔
      ∀ e, endpoint = some e → Plain e ∧ e ≠ "" := by
  cases endpoint with
  | none => simp [textOf]
  | some e =>
      have hshown := shown_dropNul_iff e
      have htext : textOf (some e) = dropNul e := rfl
      rw [htext]
      by_cases hnil : (dropNul e).toList = []
      · rw [if_pos hnil]
        refine iff_of_false (by simp) ?_
        intro h
        obtain ⟨hplain, hne⟩ := h e rfl
        rw [dropNul_of_not_mem hplain.nul] at hnil
        exact hne (by simpa using hnil)
      · have hne : e ≠ "" := by
          rintro rfl
          exact hnil rfl
        rw [if_neg hnil, Option.map_some, Option.some.injEq, hshown]
        simp [hne]

/-- A peer comes back if it is one that can be written. -/
theorem readPeer_iff (p : WireGuardPeer) :
    readPeer (sectionOfPeer p).entries = TunnelPeer.of p ↔ PlainPeer p := by
  have hkeep : some 25 = some (p.persistentKeepalive.getD 25).toNat ↔
      ∀ t, p.persistentKeepalive = some t → t = 25 := by
    cases p.persistentKeepalive with
    | none => simp
    | some t =>
        rw [Option.getD_some, Option.some.injEq]
        constructor
        · rintro h t' ⟨⟩
          exact UInt16.toNat_inj.mp h.symm
        · intro h
          rw [h t rfl]
          rfl
  rw [sectionOfPeer, readPeer_sectionOf, TunnelPeer.of, TunnelPeer.mk.injEq, Option.some.injEq,
    shown_dropNul_iff, items_ipsText_iff, endpoint_iff, hkeep]
  exact ⟨fun ⟨hkey, hips, hend, hkeep⟩ => ⟨hkey, hips, hend, hkeep⟩,
    fun h => ⟨h.publicKey, h.allowedIps, h.endpoint, h.keepalive⟩⟩

/-! ## the tunnel -/

/-- An interface with what a tunnel needs, in texts of one line. -/
structure OneLineInterface (w : WireGuardInterface) : Prop where
  privateKey : ∃ key, w.privateKey = some key ∧ OneLine key
  address : ∃ address, w.address = some address ∧ OneLine address
  listenPort : w.listenPort.isSome
  peers : ∀ p ∈ w.peers, OneLinePeer p

/-- Dropping NULs adds nothing. -/
theorem not_mem_dropNul {x : Char} {s : String} (h : x ∉ s.toList) : x ∉ (dropNul s).toList := by
  rw [toList_dropNul]
  exact fun hmem => h (List.mem_filter.mp hmem).1

/-- What no peer has is not in the file. -/
theorem not_mem_body {x : Char} {ps : List WireGuardPeer}
    (h : ∀ p ∈ ps, ∀ l ∈ blockOf p, x ∉ l) : ∀ l ∈ body ps, x ∉ l := by
  induction ps with
  | nil => simp [body]
  | cons p ps ih =>
      obtain ⟨hp, hrest⟩ := List.forall_mem_cons.mp h
      by_cases hnil : ps = []
      · subst hnil
        exact hp
      · rw [body_cons hnil]
        intro l hl
        rcases List.mem_append.mp hl with hl | hl
        · exact hp l hl
        · rcases List.mem_cons.mp hl with rfl | hl
          · simp
          · exact ih hrest l hl

/-- The lines of a file are lines, and without backslashes. -/
theorem oneLine_fileLines {w : WireGuardInterface} (h : OneLineInterface w) :
    ∀ x, x = '\\' ∨ x = '\n' → ∀ l ∈ fileLines w, x ∉ l := by
  intro x hx l hl
  have hone : ∀ s : String, OneLine s → x ∉ (dropNul s).toList := by
    intro s hs
    rcases hx with rfl | rfl
    · exact not_mem_dropNul hs.1
    · exact not_mem_dropNul hs.2
  have hlit : ∀ s : String, '\\' ∉ s.toList → '\n' ∉ s.toList → x ∉ s.toList := by
    rintro s hback hnl
    rcases hx with rfl | rfl <;> assumption
  have hcomma : x ≠ ',' := by rcases hx with rfl | rfl <;> decide
  obtain ⟨key, hkey, hkeyline⟩ := h.privateKey
  obtain ⟨address, haddr, haddrline⟩ := h.address
  rcases List.mem_append.mp hl with hl | hl
  · have hport : x ∉ (portOf w).toList := by
      have hdigits : ∀ n : Nat, x ∉ (toString n).toList := by
        intro n hmem
        have hname := List.all_eq_true.mp (all_isNameChar_digits n) x hmem
        rcases hx with rfl | rfl <;> revert hname <;> decide
      rw [portOf]
      cases w.listenPort with
      | none => simp
      | some p => exact hdigits p.toNat
    have hkeytext : x ∉ (textOf w.privateKey).toList := by
      rw [hkey]
      exact hone key hkeyline
    have haddrtext : x ∉ (textOf w.address).toList := by
      rw [haddr]
      exact hone address haddrline
    simp only [head, List.mem_cons, List.not_mem_nil, or_false] at hl
    rcases hl with rfl | rfl | rfl | rfl | rfl | rfl
    · exact hlit _ (by decide) (by decide)
    · exact hlit _ (by decide) (by decide)
    · exact List.not_mem_append (hlit _ (by decide) (by decide)) hkeytext
    · exact List.not_mem_append (hlit _ (by decide) (by decide)) haddrtext
    · exact List.not_mem_append (hlit _ (by decide) (by decide)) hport
    · simp
  · refine not_mem_body ?_ l hl
    intro p hp l hl
    obtain ⟨hpk, hips, hend⟩ := h.peers p hp
    have hipstext : x ∉ (ipsText p.allowedIps).toList :=
      not_mem_ipsText hcomma fun ip hip => hone ip (hips ip hip)
    have hendtext : x ∉ (textOf p.endpoint).toList := by
      cases he : p.endpoint with
      | none => simp [textOf]
      | some e => exact hone e (hend e he)
    rw [blockOf, block, List.mem_append] at hl
    rcases hl with hl | hl
    · simp only [List.mem_cons, List.not_mem_nil, or_false] at hl
      rcases hl with rfl | rfl | rfl | rfl
      · exact hlit _ (by decide) (by decide)
      · exact List.not_mem_append (hlit _ (by decide) (by decide)) (hone _ hpk)
      · exact List.not_mem_append (hlit _ (by decide) (by decide)) hipstext
      · exact hlit _ (by decide) (by decide)
    · rw [endpointLine] at hl
      split at hl
      · cases hl
      · rw [List.mem_singleton.mp hl]
        exact List.not_mem_append (hlit _ (by decide) (by decide)) hendtext

/-- An interface comes back from its file if its texts mean themselves. -/
theorem readTunnel_fileOf_iff (i : Nat) {w : WireGuardInterface} (h : OneLineInterface w) :
    readTunnel (fileOf i w).content = some (Tunnel.of w) ↔
      (∀ key, w.privateKey = some key → Plain key) ∧
        (∀ address, w.address = some address → Plain address) ∧ ∀ p ∈ w.peers, PlainPeer p := by
  have hlines := oneLine_fileLines h
  obtain ⟨key, hkey, _⟩ := h.privateKey
  obtain ⟨address, haddr, _⟩ := h.address
  obtain ⟨port, hport⟩ := Option.isSome_iff_exists.mp h.listenPort
  have hnumber : Rust.parseDigits (Ini.shown (portOf w).toList) = some port.toNat := by
    have hdigits : ∀ c ∈ (toString port.toNat).toList, c.isDigit := by
      intro c hc
      rw [show (toString port.toNat).toList = Nat.toDigits 10 port.toNat from Nat.toList_repr] at hc
      exact Nat.isDigit_of_mem_toDigits (by decide) (by decide) hc
    have hself : Ini.shown (toString port.toNat).toList = (toString port.toNat).toList := by
      refine Ini.shown_eq_self_iff.mpr ⟨?_, Ini.trim_eq_self ?_ ?_⟩
      · intro hmem
        cases hdigits _ hmem
      · exact fun c hc => Ini.isBlank_of_isDigit (hdigits c (List.mem_of_mem_head? hc))
      · exact fun c hc => Ini.isBlank_of_isDigit (hdigits c (List.mem_of_getLast? hc))
    rw [portOf, hport, Option.map_some, Option.getD_some, hself]
    exact Rust.parseDigits_repr port.toNat
  have hpeers : (w.peers.map fun p => readPeer (sectionOfPeer p).entries) =
      w.peers.map TunnelPeer.of ↔ ∀ p ∈ w.peers, PlainPeer p := by
    rw [List.map_inj_left]
    exact forall₂_congr fun p _ => readPeer_iff p
  rw [content_fileOf i w (hlines _ (Or.inl rfl)),
    readTunnel_fileLines w (hlines _ (Or.inr rfl)), Option.some.injEq, Tunnel.of,
    Tunnel.mk.injEq, hnumber, hpeers, hkey, haddr, hport]
  simp [textOf, shown_dropNul_iff]

/-- What the script writes for an interface. -/
theorem createWgConfigs_file (canWrite : String → Bool) (D : Display) (c : Config)
    {written : Written} (hwritten : createWgConfigs canWrite D c = some written) {i : Nat}
    {file : File} (hfile : written.files[i]? = some file) {w : WireGuardInterface}
    (hw : c.wg[i]? = some w) : file = fileOf i w := by
  obtain ⟨vars, hcount, hquiet⟩ := wgCount_eq D c
  obtain ⟨written', hwritten', _, _, hfiles⟩ :=
    writeConfigs_spec canWrite hquiet (List.range (counted c))
  rw [createWgConfigs, hcount, Option.bind_eq_bind, Option.bind_some] at hwritten
  have hsame := Option.some.inj (hwritten'.symm.trans hwritten)
  subst hsame
  obtain ⟨j, hj, hof⟩ := hfiles i file hfile
  obtain ⟨hlt, hget⟩ := List.getElem?_eq_some_iff.mp hj
  rw [List.getElem_range] at hget
  subst hget
  exact hof w hw

/-- There is a first file, if there is an interface. -/
theorem createWgConfigs_first (D : Display) (c : Config) (hwg : c.wg ≠ []) :
    ∃ written file, createWgConfigs (fun _ => true) D c = some written ∧
      written.files[0]? = some file := by
  obtain ⟨vars, hcount, hquiet⟩ := wgCount_eq D c
  obtain ⟨written, hwritten, _, hpaths, _⟩ :=
    writeConfigs_spec (fun _ => true) hquiet (List.range (counted c))
  have hcreate : createWgConfigs (fun _ => true) D c = some written := by
    rw [createWgConfigs, hcount]
    exact hwritten
  have hpos : 0 < counted c := by
    rw [counted, if_neg hwg]
    omega
  have hlength := congrArg List.length hpaths
  rw [List.takeWhile_eq_self_iff.mpr (by simp)] at hlength
  simp only [List.length_map, List.length_range] at hlength
  exact ⟨written, _, hcreate, List.getElem?_eq_getElem (by omega)⟩

/-- **The file says what is configured.**  Of an interface with the texts a
tunnel needs, each on one line, the file that is written for it gives it back
exactly when the texts mean themselves there, no endpoint and no allowed IP is
empty, and no peer has another keepalive than 25. -/
theorem tunnel_read_iff (canWrite : String → Bool) (D : Display) (c : Config)
    {written : Written} (hwritten : createWgConfigs canWrite D c = some written) {i : Nat}
    {file : File} (hfile : written.files[i]? = some file) {w : WireGuardInterface}
    (hw : c.wg[i]? = some w) (hline : OneLineInterface w) :
    readTunnel file.content = some (Tunnel.of w) ↔
      (∀ key, w.privateKey = some key → Plain key) ∧
        (∀ address, w.address = some address → Plain address) ∧
          ∀ p ∈ w.peers, PlainPeer p := by
  rw [createWgConfigs_file canWrite D c hwritten hfile hw]
  exact readTunnel_fileOf_iff i hline

/-- A tunnel with one peer. -/
def oneTunnel (keepalive : Option UInt16) : Config :=
  { Config.empty with
    wg := [⟨none, some "sK=", some "10.0.0.2/24", some 51820,
      [⟨"pK=", some "vpn.example:51820", ["10.0.0.0/24", "fd00::/64"], keepalive⟩]⟩] }

theorem oneLine_oneTunnel (keepalive : Option UInt16) :
    ∀ w ∈ (oneTunnel keepalive).wg, OneLineInterface w := by
  intro w hw
  rw [List.mem_singleton.mp hw]
  refine ⟨⟨_, rfl, by decide, by decide⟩, ⟨_, rfl, by decide, by decide⟩, rfl, ?_⟩
  intro p hp
  have hkey : OneLine "pK=" := ⟨by decide, by decide⟩
  rw [List.mem_singleton.mp hp]
  refine ⟨hkey, ?_, ?_⟩
  · intro ip hip
    simp only [List.mem_cons, List.not_mem_nil, or_false] at hip
    rcases hip with rfl | rfl <;> exact ⟨by decide, by decide⟩
  · rintro e ⟨⟩
    exact ⟨by decide, by decide⟩

/-- Without a keepalive of its own, it comes back. -/
theorem tunnel_read_default :
    ∃ written file w, createWgConfigs (fun _ => true) noDisplay (oneTunnel none) = some written ∧
      written.files[0]? = some file ∧ (oneTunnel none).wg[0]? = some w ∧
      readTunnel file.content = some (Tunnel.of w) := by
  obtain ⟨written, file, hwritten, hfile⟩ :=
    createWgConfigs_first noDisplay (oneTunnel none) (List.cons_ne_nil _ _)
  have hplain := (tunnel_read_iff (fun _ => true) noDisplay (oneTunnel none) hwritten hfile rfl
    (oneLine_oneTunnel none _ List.mem_cons_self)).mpr (by
      refine ⟨?_, ?_, ?_⟩
      · rintro key ⟨⟩
        exact ⟨by decide, by decide, by decide⟩
      · rintro address ⟨⟩
        exact ⟨by decide, by decide, by decide⟩
      · intro p hp
        rw [List.mem_singleton.mp hp]
        refine ⟨⟨by decide, by decide, by decide⟩, ?_, ?_, by rintro t ⟨⟩⟩
        · intro ip hip
          simp only [List.mem_cons, List.not_mem_nil, or_false] at hip
          rcases hip with rfl | rfl <;>
            exact ⟨⟨by decide, by decide, by decide⟩, by decide, by decide⟩
        · rintro e ⟨⟩
          exact ⟨⟨by decide, by decide, by decide⟩, by decide⟩)
  exact ⟨written, file, _, hwritten, hfile, rfl, hplain⟩

/-- With a keepalive of 30 it does not. -/
theorem keepalive_lost :
    ¬ ∀ (D : Display) (c : Config) (written : Written),
      createWgConfigs (fun _ => true) D c = some written →
        ∀ (i : Nat) (file : File) (w : WireGuardInterface), written.files[i]? = some file →
          c.wg[i]? = some w → OneLineInterface w →
            readTunnel file.content = some (Tunnel.of w) := by
  intro h
  obtain ⟨written, file, hwritten, hfile⟩ :=
    createWgConfigs_first noDisplay (oneTunnel (some 30)) (List.cons_ne_nil _ _)
  have hline := oneLine_oneTunnel (some 30) _ List.mem_cons_self
  have hread := h noDisplay (oneTunnel (some 30)) written hwritten 0 file _ hfile rfl hline
  rw [createWgConfigs_file (fun _ => true) noDisplay _ hwritten hfile rfl,
    readTunnel_fileOf_iff 0 hline] at hread
  have hkeep := (hread.2.2 _ List.mem_cons_self).keepalive 30 rfl
  cases hkeep

end Zebrafish.System.WireGuard
