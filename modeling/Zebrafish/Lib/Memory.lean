import Mathlib.Algebra.Group.Nat.Defs

/-!
# Memory

Byte-addressed memory and what a sequence of writes leaves in it.

`Within lo ws hi` says that the writes `ws` follow one another between two
addresses.  Layout code establishes it piece by piece (`Within.append`), and
it gives all there is to know: no write leaves the region
(`Within.bounds`), no two overlap (`Within.pairwise`), and so
each can be read back when all are done (`load_storeAll`).
-/

namespace Memory

/-- The byte at each address. -/
abbrev Mem := Nat → UInt8

/-- Some bytes written from an address on. -/
structure Write where
  start : Nat
  bytes : List UInt8
deriving DecidableEq, Repr

/-- The first address after a write. -/
def Write.stop (w : Write) : Nat := w.start + w.bytes.length

/-- Two writes that share no address. -/
def Write.Apart (w w' : Write) : Prop := w.stop ≤ w'.start ∨ w'.stop ≤ w.start

def store (mem : Mem) (w : Write) : Mem := fun a =>
  if w.start ≤ a then w.bytes.getD (a - w.start) (mem a) else mem a

/-- Perform writes in order. -/
def storeAll (mem : Mem) (ws : List Write) : Mem := ws.foldl store mem

/-- The `n` bytes from an address on. -/
def load (mem : Mem) (a n : Nat) : List UInt8 := (List.range n).map fun i => mem (a + i)

/-- As many bytes are loaded as are asked for. -/
@[simp] theorem length_load (mem : Mem) (a n : Nat) : (load mem a n).length = n := by
  simp [load]

/-- Two pieces of memory in a row. -/
theorem load_append (mem : Mem) (a n n' : Nat) :
    load mem a (n + n') = load mem a n ++ load mem (a + n) n' := by
  simp only [load, List.range_add, List.map_append, List.map_map, Function.comp_def,
    Nat.add_assoc]

/-! ## reading back -/

/-- What is in front of a write is left as it was. -/
theorem store_of_lt {w : Write} {a : Nat} (h : a < w.start) (mem : Mem) :
    store mem w a = mem a := if_neg (by omega)

/-- So is what is behind it. -/
theorem store_of_stop_le {w : Write} {a : Nat} (h : w.stop ≤ a) (mem : Mem) :
    store mem w a = mem a := by
  unfold Write.stop at h
  unfold store
  rw [if_pos (by omega), List.getD_eq_getElem?_getD, List.getElem?_eq_none (by omega),
    Option.getD_none]

/-- A write is read back. -/
theorem load_store (mem : Mem) (w : Write) :
    load (store mem w) w.start w.bytes.length = w.bytes := by
  apply List.ext_getElem (by simp)
  intro i h₁ h₂
  simp only [load, List.getElem_map, List.getElem_range, store, Nat.le_add_right, if_true,
    Nat.add_sub_cancel_left]
  rw [List.getD_eq_getElem?_getD, List.getElem?_eq_getElem h₂, Option.getD_some]

/-- A write elsewhere is not seen. -/
theorem load_store_of_apart {w : Write} {a n : Nat} (h : a + n ≤ w.start ∨ w.stop ≤ a)
    (mem : Mem) : load (store mem w) a n = load mem a n := by
  unfold load
  apply List.map_congr_left
  intro i hi
  rw [List.mem_range] at hi
  rcases h with h | h
  · exact store_of_lt (by omega) mem
  · exact store_of_stop_le (by omega) mem

/-- Writes elsewhere do not change what is loaded. -/
theorem load_storeAll_of_apart {ws : List Write} {a n : Nat}
    (h : ∀ w ∈ ws, a + n ≤ w.start ∨ w.stop ≤ a) (mem : Mem) :
    load (storeAll mem ws) a n = load mem a n := by
  induction ws generalizing mem with
  | nil => rfl
  | cons w ws ih =>
      rw [storeAll, List.foldl_cons]
      exact (ih (fun v hv => h v (List.mem_cons_of_mem w hv)) (store mem w)).trans
        (load_store_of_apart (h w List.mem_cons_self) mem)

/-- When no two writes overlap, each is read back. -/
theorem load_storeAll {ws : List Write} (h : ws.Pairwise Write.Apart) {w : Write} (hw : w ∈ ws)
    (mem : Mem) : load (storeAll mem ws) w.start w.bytes.length = w.bytes := by
  induction ws generalizing mem with
  | nil => cases hw
  | cons v ws ih =>
      obtain ⟨hv, hws⟩ := List.pairwise_cons.mp h
      rcases List.mem_cons.mp hw with rfl | hw
      · exact (load_storeAll_of_apart (fun u hu => hv u hu) (store mem w)).trans (load_store mem w)
      · exact ih hws hw (store mem v)

/-- Writes one after another. -/
theorem storeAll_append (mem : Mem) (ws ws' : List Write) :
    storeAll mem (ws ++ ws') = storeAll (storeAll mem ws) ws' := List.foldl_append

/-- A write that no later one overlaps is read back, whatever came before. -/
theorem load_storeAll_last {before after : List Write} {w : Write}
    (h : ∀ v ∈ after, w.stop ≤ v.start ∨ v.stop ≤ w.start) (mem : Mem) :
    load (storeAll mem (before ++ w :: after)) w.start w.bytes.length = w.bytes := by
  rw [storeAll_append, storeAll, List.foldl_cons]
  exact (load_storeAll_of_apart h _).trans (load_store _ w)

/-! ## writes in sequence -/

/-- The writes follow one another from `lo` to `hi`. -/
def Within (lo : Nat) : List Write → Nat → Prop
  | [], hi => lo ≤ hi
  | w :: ws, hi => lo ≤ w.start ∧ Within w.stop ws hi

theorem Within.le {ws : List Write} {lo hi : Nat} (h : Within lo ws hi) : lo ≤ hi := by
  induction ws generalizing lo with
  | nil => exact h
  | cons w ws ih =>
      have hstop : w.start ≤ w.stop := Nat.le_add_right _ _
      exact Nat.le_trans h.1 (Nat.le_trans hstop (ih h.2))

/-- Writes are within any larger piece. -/
theorem Within.mono {ws : List Write} {lo lo' hi hi' : Nat} (h : Within lo ws hi)
    (hlo : lo' ≤ lo) (hhi : hi ≤ hi') : Within lo' ws hi' := by
  induction ws generalizing lo lo' with
  | nil => exact Nat.le_trans hlo (Nat.le_trans h hhi)
  | cons w ws ih => exact ⟨Nat.le_trans hlo h.1, ih h.2 (Nat.le_refl _)⟩

/-- Writes in two pieces in a row are within both together. -/
theorem Within.append {ws ws' : List Write} {lo mid hi : Nat} (h : Within lo ws mid)
    (h' : Within mid ws' hi) : Within lo (ws ++ ws') hi := by
  induction ws generalizing lo with
  | nil => exact h'.mono h (Nat.le_refl _)
  | cons w ws ih => exact ⟨h.1, ih h.2⟩

/-- Each of the writes is within the piece. -/
theorem Within.bounds {ws : List Write} {lo hi : Nat} (h : Within lo ws hi) {w : Write}
    (hw : w ∈ ws) : lo ≤ w.start ∧ w.stop ≤ hi := by
  induction ws generalizing lo with
  | nil => cases hw
  | cons v ws ih =>
      rcases List.mem_cons.mp hw with rfl | hw
      · exact ⟨h.1, h.2.le⟩
      · have hstop : v.start ≤ v.stop := Nat.le_add_right _ _
        have hrest := ih h.2 hw
        exact ⟨Nat.le_trans h.1 (Nat.le_trans hstop hrest.1), hrest.2⟩

/-- Writes in a row are apart from each other. -/
theorem Within.pairwise {ws : List Write} {lo hi : Nat} (h : Within lo ws hi) :
    ws.Pairwise Write.Apart := by
  induction ws generalizing lo with
  | nil => exact List.Pairwise.nil
  | cons w ws ih => exact List.Pairwise.cons (fun v hv => Or.inl (h.2.bounds hv).1) (ih h.2)

/-! ## words -/

/-- The eight bytes of a 64-bit word, least significant first. -/
def le64 (n : Nat) : List UInt8 := (List.range 8).map fun i => UInt8.ofNat (n / 256 ^ i)

/-- The word eight bytes spell. -/
def ofLe64 (bs : List UInt8) : Nat := bs.foldr (fun b n => b.toNat + 256 * n) 0

@[simp] theorem length_le64 (n : Nat) : (le64 n).length = 8 := by simp [le64]

/-- A number of 64 bits is read back from its bytes. -/
theorem ofLe64_le64 {n : Nat} (h : n < 2 ^ 64) : ofLe64 (le64 n) = n := by
  simp only [ofLe64, le64, List.range_succ, List.range_zero, List.nil_append,
    List.map_cons, List.map_nil, List.cons_append, List.foldr_cons, List.foldr_nil,
    UInt8.toNat_ofNat']
  omega

/-- The four bytes of a 32-bit word. -/
def le32 (n : Nat) : List UInt8 := (List.range 4).map fun i => UInt8.ofNat (n / 256 ^ i)

/-- The word four bytes spell. -/
def ofLe32 (bs : List UInt8) : Nat := ofLe64 bs

@[simp] theorem length_le32 (n : Nat) : (le32 n).length = 4 := by simp [le32]

/-- A number of 32 bits is read back from its bytes. -/
theorem ofLe32_le32 {n : Nat} (h : n < 2 ^ 32) : ofLe32 (le32 n) = n := by
  simp only [ofLe32, ofLe64, le32, List.range_succ, List.range_zero, List.nil_append,
    List.map_cons, List.map_nil, List.cons_append, List.foldr_cons, List.foldr_nil,
    UInt8.toNat_ofNat']
  omega

end Memory
