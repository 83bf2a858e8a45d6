import Mathlib.Data.List.Nodup
import Mathlib.Data.List.Perm.Subperm

/-!
# Lru

A bounded map that evicts its least recently used key, and the history it
remembers.

The map keeps its entries most recently used first, so recency *is* the list
order:

* `get` moves the key it finds to the front;
* `put` writes at the front and lets the back fall off when the map is full;
* `pop` forgets one key.

A *touch history* lists the keys put or found, latest first, and `recency`
ranks them: `rank ts k` is the number of keys touched after the last touch of
`k`.  `Tracks` ties a map to its history, one lemma per
operation; `Tracks.mem_keys` then says which keys a map must still hold.
-/

namespace Lru

variable {κ ν : Type} [DecidableEq κ]

/-- A map of at most `cap` entries, most recently used first. -/
structure LruCache (κ ν : Type) where
  cap : Nat
  entries : List (κ × ν)
  cap_pos : 0 < cap
  nodup_keys : (entries.map Prod.fst).Nodup
  length_le : entries.length ≤ cap

namespace LruCache

/-- The empty map of a given capacity. -/
def new (cap : Nat) (h : 0 < cap) : LruCache κ ν where
  cap := cap
  entries := []
  cap_pos := h
  nodup_keys := by simp
  length_le := by simp

/-- The keys held, most recently used first. -/
def keys (c : LruCache κ ν) : List κ := c.entries.map Prod.fst

/-- The value under a key, without touching it. -/
def peek (c : LruCache κ ν) (k : κ) : Option ν := c.entries.lookup k

/-- Drop a key from an entry list. -/
def without (k : κ) (l : List (κ × ν)) : List (κ × ν) := l.filter (fun e => e.1 ≠ k)

/-- Taking out a key leaves the other ones. -/
theorem map_fst_without (k : κ) (l : List (κ × ν)) :
    (without k l).map Prod.fst = (l.map Prod.fst).filter (fun x => x ≠ k) := by
  induction l with
  | nil => rfl
  | cons e l ih =>
      by_cases h : e.1 = k <;> simp_all [without]

/-- There are no more entries afterwards. -/
theorem length_without_le (k : κ) (l : List (κ × ν)) : (without k l).length ≤ l.length :=
  List.length_filter_le _ _

/-- Dropping a key that is there shortens the list. -/
theorem length_without_lt {k : κ} {l : List (κ × ν)} (h : k ∈ l.map Prod.fst) :
    (without k l).length < l.length := by
  obtain ⟨e, he, rfl⟩ := List.mem_map.mp h
  exact List.length_filter_lt_length_iff_exists.mpr ⟨e, he, by simp⟩

/-- No key is there twice after it was put in front. -/
theorem nodup_cons_without (k : κ) (v : ν) {l : List (κ × ν)} (h : (l.map Prod.fst).Nodup) :
    (((k, v) :: without k l).map Prod.fst).Nodup := by
  rw [List.map_cons, map_fst_without, List.nodup_cons]
  exact ⟨by simp, h.filter _⟩

/-- Write a key at the front, the least recently used entry falling off a
full map. -/
def put (c : LruCache κ ν) (k : κ) (v : ν) : LruCache κ ν where
  cap := c.cap
  entries := ((k, v) :: without k c.entries).take c.cap
  cap_pos := c.cap_pos
  nodup_keys := by
    rw [List.map_take]
    exact (nodup_cons_without k v c.nodup_keys).sublist (List.take_sublist _ _)
  length_le := by rw [List.length_take]; exact Nat.min_le_left _ _

/-- Forget a key. -/
def pop (c : LruCache κ ν) (k : κ) : LruCache κ ν where
  cap := c.cap
  entries := without k c.entries
  cap_pos := c.cap_pos
  nodup_keys := by rw [map_fst_without]; exact c.nodup_keys.filter _
  length_le := Nat.le_trans (length_without_le k c.entries) c.length_le

/-- Look a key up; a key that is found becomes the most recently used. -/
def get (c : LruCache κ ν) (k : κ) : Option ν × LruCache κ ν :=
  match c.peek k with
  | none => (none, c)
  | some v => (some v, c.put k v)

/-! ## what the operations leave -/

/-- A key that is put goes to the front, and the last ones have no room. -/
theorem keys_put (c : LruCache κ ν) (k : κ) (v : ν) :
    (c.put k v).keys = (k :: c.keys.filter (fun x => x ≠ k)).take c.cap := by
  simp only [keys, put, List.map_take, List.map_cons, map_fst_without]

/-- A key that is taken out is gone. -/
theorem keys_pop (c : LruCache κ ν) (k : κ) :
    (c.pop k).keys = c.keys.filter (fun x => x ≠ k) := by
  simp only [keys, pop, map_fst_without]

/-- What was taken out is not found. -/
theorem lookup_without_self (k : κ) (l : List (κ × ν)) : (without k l).lookup k = none := by
  rw [List.lookup_eq_none_iff]
  intro e he
  have : e.1 ≠ k := by simpa using (List.mem_filter.mp he).2
  simpa using this.symm

/-- The others are. -/
theorem lookup_without_of_ne {k k' : κ} (h : k' ≠ k) (l : List (κ × ν)) :
    (without k l).lookup k' = l.lookup k' := by
  induction l with
  | nil => rfl
  | cons e l ih =>
      obtain ⟨x, v⟩ := e
      by_cases hx : x = k
      · subst hx
        have hb : (k' == x) = false := by simpa using h
        rw [show without x ((x, v) :: l) = without x l by simp [without], ih,
          List.lookup_cons, hb]
      · rw [show without k ((x, v) :: l) = (x, v) :: without k l by simp [without, hx],
          List.lookup_cons, List.lookup_cons, ih]

/-- Nothing is found just if the key is not there. -/
theorem peek_eq_none_iff (c : LruCache κ ν) (k : κ) : c.peek k = none ↔ k ∉ c.keys := by
  rw [peek, List.lookup_eq_none_iff, keys, List.mem_map]
  constructor
  · rintro h ⟨e, he, rfl⟩
    simpa using h e he
  · intro h e he
    simpa using fun hk : k = e.1 => h ⟨e, he, hk.symm⟩

/-- A peek that answers names a held key. -/
theorem mem_keys_of_peek {c : LruCache κ ν} {k : κ} {v : ν} (h : c.peek k = some v) :
    k ∈ c.keys := by
  by_contra hk
  rw [(c.peek_eq_none_iff k).mpr hk] at h
  cases h

/-- What was put is found. -/
@[simp] theorem peek_put_self (c : LruCache κ ν) (k : κ) (v : ν) :
    (c.put k v).peek k = some v := by
  obtain ⟨n, hn⟩ : ∃ n, c.cap = n + 1 := ⟨c.cap - 1, by have := c.cap_pos; omega⟩
  simp [peek, put, hn]

/-- What was taken out is not. -/
@[simp] theorem peek_pop_self (c : LruCache κ ν) (k : κ) : (c.pop k).peek k = none :=
  lookup_without_self k c.entries

/-- Other keys have what they had. -/
theorem peek_pop_of_ne (c : LruCache κ ν) {k k' : κ} (h : k' ≠ k) :
    (c.pop k).peek k' = c.peek k' := lookup_without_of_ne h c.entries

/-- A list prefix answers a lookup as the list does, or not at all. -/
theorem lookup_take (n : Nat) (k : κ) (l : List (κ × ν)) (v : ν)
    (h : (l.take n).lookup k = some v) : l.lookup k = some v := by
  induction l generalizing n with
  | nil => simp at h
  | cons e l ih =>
      obtain ⟨x, w⟩ := e
      cases n with
      | zero => simp at h
      | succ n =>
          rw [List.take_succ_cons, List.lookup_cons] at h
          rw [List.lookup_cons]
          cases hx : k == x with
          | true => simpa [hx] using h
          | false => rw [hx] at h; exact ih n h

/-- Touching a held key before popping it changes nothing. -/
theorem pop_put_of_mem (c : LruCache κ ν) {k : κ} (v : ν) (h : k ∈ c.keys) :
    (c.put k v).pop k = c.pop k := by
  have hlt := length_without_lt h
  have hle := c.length_le
  have htake : ((k, v) :: without k c.entries).take c.cap = (k, v) :: without k c.entries :=
    List.take_of_length_le (by simp only [List.length_cons]; omega)
  have hentries : without k (((k, v) :: without k c.entries).take c.cap) =
      without k c.entries := by
    rw [htake]
    simp [without]
  simp only [pop, put, hentries]

/-- After a `put` another key answers as before, or was evicted. -/
theorem peek_of_peek_put {c : LruCache κ ν} {k k' : κ} {v w : ν} (hne : k' ≠ k)
    (h : (c.put k v).peek k' = some w) : c.peek k' = some w := by
  have h' := lookup_take _ _ _ _ h
  have hb : (k' == k) = false := by simpa using hne
  rw [List.lookup_cons, hb] at h'
  rwa [lookup_without_of_ne hne] at h'

end LruCache

/-! ## recency -/

/-- Keys in the order of their latest touch; the history is latest first. -/
def recency : List κ → List κ
  | [] => []
  | k :: ks => k :: (recency ks).filter (fun x => x ≠ k)

/-- Each key has one place in the order of use. -/
theorem nodup_recency (ts : List κ) : (recency ts).Nodup := by
  induction ts with
  | nil => simp [recency]
  | cons k ks ih => exact List.nodup_cons.mpr ⟨by simp, ih.filter _⟩

/-- Renaming keys without clashes keeps their order. -/
theorem recency_map {κ' : Type} [DecidableEq κ'] {f : κ → κ'} (hf : Function.Injective f)
    (ts : List κ) : recency (ts.map f) = (recency ts).map f := by
  induction ts with
  | nil => rfl
  | cons t ts ih =>
      rw [List.map_cons, recency, recency, ih, List.map_cons, List.filter_map]
      simp [Function.comp_def, hf.eq_iff]

/-- Places do not depend on what the keys are called. -/
theorem idxOf_map {κ' : Type} [DecidableEq κ'] {f : κ → κ'} (hf : Function.Injective f)
    (k : κ) (l : List κ) : (l.map f).idxOf (f k) = l.idxOf k := by
  induction l with
  | nil => rfl
  | cons a l ih =>
      by_cases h : a = k
      · simp [h]
      · rw [List.map_cons, List.idxOf_cons_ne _ h, List.idxOf_cons_ne _ (hf.ne h), ih]

/-- In a list without repetition, a key comes no earlier in the whole than in
a sublist that has it. -/
theorem idxOf_le_of_sublist {l r : List κ} {k : κ} (hs : l.Sublist r) (hr : r.Nodup)
    (hk : k ∈ l) : l.idxOf k ≤ r.idxOf k := by
  induction hs with
  | slnil => simp at hk
  | cons a hs ih =>
      have hne : a ≠ k := by
        rintro rfl
        exact (List.nodup_cons.mp hr).1 (hs.subset hk)
      rw [List.idxOf_cons_ne _ hne]
      exact Nat.le_succ_of_le (ih (List.nodup_cons.mp hr).2 hk)
  | cons_cons a hs ih =>
      by_cases ha : a = k
      · simp [ha]
      · rw [List.idxOf_cons_ne _ ha, List.idxOf_cons_ne _ ha]
        have hk' : k ∈ _ := (List.mem_cons.mp hk).resolve_left (Ne.symm ha)
        exact Nat.succ_le_succ (ih (List.nodup_cons.mp hr).2 hk')

/-- Touching one key never makes another more recent. -/
theorem idxOf_le_touch {k k' : κ} (hne : k' ≠ k) {r : List κ} (hr : r.Nodup) :
    r.idxOf k' ≤ (k :: r.filter (fun x => x ≠ k)).idxOf k' := by
  induction r with
  | nil => simp
  | cons a r ih =>
      obtain ⟨ha, hr'⟩ := List.nodup_cons.mp hr
      rw [List.idxOf_cons_ne _ (Ne.symm hne)]
      by_cases hak' : a = k'
      · simp [hak']
      · rw [List.idxOf_cons_ne _ hak']
        by_cases hak : a = k
        · -- `a` leaves its old place and nothing else does
          subst hak
          have hf : (a :: r).filter (fun x => x ≠ a) = r := by
            rw [List.filter_cons_of_neg (by simp), List.filter_eq_self]
            intro x hx
            have : x ≠ a := fun h => ha (h ▸ hx)
            simpa using this
          exact Nat.le_of_eq (by rw [hf])
        · have ih' := ih hr'
          rw [List.idxOf_cons_ne _ (Ne.symm hne)] at ih'
          rw [List.filter_cons_of_pos (by simpa using hak), List.idxOf_cons_ne _ hak']
          omega

/-- The number of keys touched after the last touch of `k`. -/
def rank (ts : List κ) (k : κ) : Nat := (recency ts).idxOf k

/-- Nor do ranks. -/
theorem rank_map {κ' : Type} [DecidableEq κ'] {f : κ → κ'} (hf : Function.Injective f)
    (ts : List κ) (k : κ) : rank (ts.map f) (f k) = rank ts k := by
  rw [rank, rank, recency_map hf, idxOf_map hf]

/-! ## a map and its history -/

/-- A map agrees with a touch history: it holds its keys in recency order, and
a touched key is missing only when it is `gone` or when at least `cap` other
keys were touched after it. -/
structure Tracks (c : LruCache κ ν) (ts : List κ) (gone : κ → Prop) : Prop where
  ordered : c.keys.Sublist (recency ts)
  held : ∀ k ∈ ts, k ∈ c.keys ∨ gone k ∨ c.cap ≤ rank ts k

namespace Tracks

variable {c : LruCache κ ν} {ts : List κ} {gone : κ → Prop}

/-- A new cache tracks an empty history. -/
theorem new (cap : Nat) (h : 0 < cap) :
    Tracks (LruCache.new cap h : LruCache κ ν) [] gone :=
  ⟨by simp [LruCache.keys, LruCache.new], by simp⟩

/-- More keys may be gone. -/
theorem mono {gone' : κ → Prop} (h : Tracks c ts gone) (hg : ∀ k, gone k → gone' k) :
    Tracks c ts gone' :=
  ⟨h.ordered, fun k hk => (h.held k hk).imp_right (Or.imp_left (hg k))⟩

/-- A `put` touches its key, and only a key with `cap` more recent ones falls
off. -/
theorem put (h : Tracks c ts gone) (k : κ) (v : ν) :
    Tracks (c.put k v) (k :: ts) (fun x => x ≠ k ∧ gone x) := by
  have hsub : (k :: c.keys.filter (fun x => x ≠ k)).Sublist (recency (k :: ts)) :=
    (h.ordered.filter _).cons_cons k
  refine ⟨?_, ?_⟩
  · rw [LruCache.keys_put]
    exact (List.take_sublist _ _).trans hsub
  · intro x hx
    by_cases hxk : x = k
    · subst hxk
      exact Or.inl (LruCache.mem_keys_of_peek (c.peek_put_self x v))
    · rcases h.held x ((List.mem_cons.mp hx).resolve_left hxk) with hm | hg | hcap
      · by_cases hin : x ∈ (c.put k v).keys
        · exact Or.inl hin
        · -- `x` fell off the back, so `cap` keys are in front of it
          right; right
          have hL : x ∈ k :: c.keys.filter (fun y => y ≠ k) := by simp [hm, hxk]
          rw [LruCache.keys_put] at hin
          have hidx : c.cap ≤ (k :: c.keys.filter (fun y => y ≠ k)).idxOf x := by
            by_contra hlt
            exact hin (List.mem_take_iff_idxOf_lt hL |>.mpr (Nat.lt_of_not_le hlt))
          exact Nat.le_trans hidx (idxOf_le_of_sublist hsub (nodup_recency _) hL)
      · exact Or.inr (Or.inl ⟨hxk, hg⟩)
      · exact Or.inr (Or.inr (Nat.le_trans hcap (idxOf_le_touch hxk (nodup_recency ts))))

/-- A `pop` leaves the history alone; its key is gone. -/
theorem pop (h : Tracks c ts gone) (k : κ) :
    Tracks (c.pop k) ts (fun x => x = k ∨ gone x) := by
  refine ⟨?_, ?_⟩
  · rw [LruCache.keys_pop]
    exact List.filter_sublist.trans h.ordered
  · intro x hx
    by_cases hxk : x = k
    · exact Or.inr (Or.inl (Or.inl hxk))
    · rcases h.held x hx with hm | hg | hcap
      · left
        rw [LruCache.keys_pop]
        simp [hm, hxk]
      · exact Or.inr (Or.inl (Or.inr hg))
      · exact Or.inr (Or.inr hcap)

/-- A touched key with fewer than `cap` more recent ones is held, unless it is
gone. -/
theorem mem_keys (h : Tracks c ts gone) {k : κ} (hk : k ∈ ts) (hg : ¬ gone k)
    (hr : rank ts k < c.cap) : k ∈ c.keys := by
  rcases h.held k hk with hm | hg' | hcap
  · exact hm
  · exact absurd hg' hg
  · exact absurd hcap (Nat.not_le.mpr hr)

end Tracks

end Lru
