import Zebrafish.Lib.Format

/-!
# Framing

Byte strings behind a two-byte big-endian length, one after another on a
stream.

`frame` casts the length to 16 bits, as a writer that does not check it would;
`unframe` is the reader.  `unframe_eq_some_iff` says which streams are read as
which frames: the concatenations of frames short enough for their length to be
told.
-/

namespace Framing

open Format (be16 ofBe16 toNat_ofBe16 be16_ofBe16)

/-- A byte string behind its length modulo 2^16. -/
def frame (b : List UInt8) : List UInt8 := be16 (UInt16.ofNat b.length) ++ b

/-- Take one frame off a stream. -/
def readFrame : List UInt8 → Option (List UInt8 × List UInt8)
  | hi :: lo :: rest =>
      if (ofBe16 hi lo).toNat ≤ rest.length then
        some (rest.take (ofBe16 hi lo).toNat, rest.drop (ofBe16 hi lo).toNat)
      else none
  | _ => none

/-- Read frames up to the end of the stream; `n` frames need `n + 1` steps. -/
def unframeWithin : Nat → List UInt8 → Option (List (List UInt8))
  | _, [] => some []
  | 0, _ => none
  | fuel + 1, s => do
      let (b, rest) ← readFrame s
      let bs ← unframeWithin fuel rest
      pure (b :: bs)

/-- The frames of a stream, with nothing left over. -/
def unframe (s : List UInt8) : Option (List (List UInt8)) := unframeWithin s.length s

/-- A frame has two bytes more than its body. -/
@[simp] theorem length_frame (b : List UInt8) : (frame b).length = b.length + 2 := by
  simp [frame]
  omega

/-- A short byte string is read back from its frame. -/
theorem readFrame_frame {b : List UInt8} (h : b.length < 65536) (rest : List UInt8) :
    readFrame (frame b ++ rest) = some (b, rest) := by
  have hlen : (UInt16.ofNat b.length).toNat = b.length := by
    rw [UInt16.toNat_ofNat']
    exact Nat.mod_eq_of_lt h
  simp only [frame, be16, List.cons_append, List.nil_append, readFrame, Format.ofBe16_be16, hlen]
  simp

/-- What is read as a frame is one. -/
theorem eq_frame_of_readFrame {s b rest : List UInt8} (h : readFrame s = some (b, rest)) :
    s = frame b ++ rest ∧ b.length < 65536 := by
  match s with
  | [] => cases h
  | [_] => cases h
  | hi :: lo :: s =>
      rw [readFrame] at h
      by_cases hle : (ofBe16 hi lo).toNat ≤ s.length
      · rw [if_pos hle] at h
        simp only [Option.some.injEq, Prod.mk.injEq] at h
        obtain ⟨rfl, rfl⟩ := h
        have hlt := (ofBe16 hi lo).toNat_lt
        have hlen : (s.take (ofBe16 hi lo).toNat).length = (ofBe16 hi lo).toNat := by
          rw [List.length_take]
          omega
        refine ⟨?_, by omega⟩
        rw [frame, hlen, UInt16.ofNat_toNat, be16_ofBe16]
        simp
      · rw [if_neg hle] at h
        cases h

/-- Frames in a row are taken apart again. -/
theorem unframeWithin_of_flatten {fuel : Nat} {bs : List (List UInt8)}
    (hlen : ∀ b ∈ bs, b.length < 65536) (hfuel : bs.length ≤ fuel) :
    unframeWithin fuel (bs.map frame).flatten = some bs := by
  induction bs generalizing fuel with
  | nil => cases fuel <;> rfl
  | cons b bs ih =>
      obtain ⟨n, rfl⟩ : ∃ n, fuel = n + 1 := ⟨fuel - 1, by simp at hfuel; omega⟩
      have hread := readFrame_frame (hlen b List.mem_cons_self) (bs.map frame).flatten
      have hfuel' : bs.length ≤ n := by
        simp at hfuel
        omega
      have hrest := ih (fun x hx => hlen x (List.mem_cons_of_mem b hx)) hfuel'
      have hcons : ((b :: bs).map frame).flatten = frame b ++ (bs.map frame).flatten := rfl
      rw [hcons]
      cases hs : frame b ++ (bs.map frame).flatten with
      | nil =>
          have h0 := congrArg List.length hs
          simp at h0
      | cons x xs =>
          rw [unframeWithin, ← hs, hread]
          · simp [hrest]
          · intro h
            cases h

/-- What can be taken apart is frames in a row. -/
theorem flatten_of_unframeWithin {fuel : Nat} {s : List UInt8} {bs : List (List UInt8)}
    (h : unframeWithin fuel s = some bs) :
    s = (bs.map frame).flatten ∧ ∀ b ∈ bs, b.length < 65536 := by
  induction fuel generalizing s bs with
  | zero =>
      cases s with
      | nil =>
          cases h
          exact ⟨rfl, by simp⟩
      | cons x xs => cases h
  | succ fuel ih =>
      cases s with
      | nil =>
          cases h
          exact ⟨rfl, by simp⟩
      | cons x xs =>
          rw [unframeWithin] at h
          · simp only [Option.bind_eq_bind, Option.bind_eq_some_iff, Option.pure_def,
              Option.some.injEq] at h
            obtain ⟨⟨b, rest⟩, hread, bs', hrest, rfl⟩ := h
            obtain ⟨hs, hb⟩ := eq_frame_of_readFrame hread
            obtain ⟨rfl, hbs⟩ := ih hrest
            exact ⟨hs, by simpa [hb] using hbs⟩
          · intro h0
            cases h0

/-- A stream is read as a list of frames exactly when it is their
concatenation and their lengths fit. -/
theorem unframe_eq_some_iff (s : List UInt8) (bs : List (List UInt8)) :
    unframe s = some bs ↔ s = (bs.map frame).flatten ∧ ∀ b ∈ bs, b.length < 65536 := by
  constructor
  · exact flatten_of_unframeWithin
  · rintro ⟨rfl, hlen⟩
    refine unframeWithin_of_flatten hlen ?_
    induction bs with
    | nil => simp
    | cons b bs ih =>
        have hle := ih fun x hx => hlen x (List.mem_cons_of_mem b hx)
        simp only [List.map_cons, List.flatten_cons, List.length_append, length_frame,
          List.length_cons]
        omega

end Framing
