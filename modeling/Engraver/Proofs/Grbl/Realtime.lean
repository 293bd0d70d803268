import Engraver.Proofs.Grbl.Calls

/-! # Realtime bytes between others

A realtime byte leaves the line and the modes alone, so putting realtime bytes anywhere into a
stream adds their signals to the calls at the same places and changes nothing else.
-/

namespace Engraver

/-- The third list has the elements of the first two, each in its order. -/
inductive Shuffle {α : Type} : List α → List α → List α → Prop where
  | nil : Shuffle [] [] []
  | left {as bs cs : List α} (a : α) (h : Shuffle as bs cs) : Shuffle (a :: as) bs (a :: cs)
  | right {as bs cs : List α} (b : α) (h : Shuffle as bs cs) : Shuffle as (b :: bs) (b :: cs)

namespace Shuffle

variable {α β : Type} {as bs cs : List α}

theorem append_left (xs : List α) (h : Shuffle as bs cs) :
    Shuffle (xs ++ as) bs (xs ++ cs) := by
  induction xs with
  | nil => exact h
  | cons x xs ih => exact ih.left x

theorem append_right (xs : List α) (h : Shuffle as bs cs) :
    Shuffle as (xs ++ bs) (xs ++ cs) := by
  induction xs with
  | nil => exact h
  | cons x xs ih => exact ih.right x

theorem filterMap (f : α → Option β) (h : Shuffle as bs cs) :
    Shuffle (as.filterMap f) (bs.filterMap f) (cs.filterMap f) := by
  induction h with
  | nil => exact nil
  | left a h ih =>
    cases hf : f a with
    | none => simpa [hf] using ih
    | some b => simpa [hf] using ih.left b
  | right a h ih =>
    cases hf : f a with
    | none => simpa [hf] using ih
    | some b => simpa [hf] using ih.right b

theorem eq_of_right_nil (h : Shuffle as [] cs) : cs = as := by
  generalize hb : ([] : List α) = bs at h
  induction h with
  | nil => rfl
  | left a h ih => rw [ih hb]
  | right b h ih => cases hb

end Shuffle

namespace RealtimeByte

theorem shuffle_filter (bs : List UInt8) :
    Shuffle (bs.filter fun b => (ofByte? b).isNone) ((bs.filterMap ofByte?).map toByte) bs := by
  induction bs with
  | nil => exact .nil
  | cons b bs ih =>
    cases hb : ofByte? b with
    | none => simpa [hb] using ih.left b
    | some r =>
      obtain rfl := ofByte?_eq_some_iff.mp hb
      simpa [hb] using ih.right r.toByte

end RealtimeByte

namespace LineReader

theorem feedAll_shuffle {bs ds : List UInt8} {rs : List RealtimeByte}
    (h : Shuffle bs (rs.map RealtimeByte.toByte) ds) (s : LineReader) :
    (s.feedAll ds).1 = (s.feedAll bs).1 ∧
      Shuffle (s.feedAll bs).2 (rs.map .realtime) (s.feedAll ds).2 := by
  generalize hr : rs.map RealtimeByte.toByte = xs at h
  induction h generalizing s rs with
  | nil =>
    obtain rfl := List.map_eq_nil_iff.mp hr
    exact ⟨rfl, .nil⟩
  | left b h ih =>
    obtain ⟨hs, hi⟩ := ih (s.feed b).1 hr
    exact ⟨hs, hi.append_left _⟩
  | right b h ih =>
    obtain ⟨r, rs, rfl, rfl, rfl⟩ := List.map_eq_cons_iff.mp hr
    obtain ⟨hs, hi⟩ := ih s rfl
    simp only [feedAll, feed_realtime]
    exact ⟨hs, hi.right _⟩

end LineReader

namespace Modes

end Modes

namespace Call

end Call

namespace Emulator

end Emulator
end Engraver
