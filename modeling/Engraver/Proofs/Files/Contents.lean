import Engraver.Files.Tree
import Mathlib.Data.List.Basic

/-! # What a written file holds

A walk through a tree passes folders only, so that a file which is put in a place that is no
folder is on no way there: the path leads to the same place as before, and the content is found.
-/

namespace Engraver.FileTree

variable {t t' : FileTree} {p folder folder' place : List String} {n : FileNode} {step : String}

theorem node?_put_self (h : place ≠ []) : (t.put place n).node? place = some n := by
  cases place with
  | nil => exact absurd rfl h
  | cons s place => simp [node?, put]

theorem lookup_filter_of_ne (h : p ≠ place) (ns : List (List String × FileNode)) :
    (ns.filter fun e => e.1 ≠ place).lookup p = ns.lookup p := by
  induction ns with
  | nil => rfl
  | cons e ns ih =>
    obtain ⟨q, m⟩ := e
    by_cases hq : q = place
    · have hpq : (p == q) = false := by simpa [hq] using h
      rw [List.filter_cons_of_neg (by simpa using hq), ih, List.lookup_cons, hpq]
    · rw [List.filter_cons_of_pos (by simpa using hq), List.lookup_cons, List.lookup_cons, ih]

theorem node?_put_of_ne (h : p ≠ place) : (t.put place n).node? p = t.node? p := by
  have hne : (p == place) = false := by simpa using h
  rw [node?, node?, put, List.lookup_cons, hne, lookup_filter_of_ne h]

def Inside (t : FileTree) (folder : List String) : Prop :=
  ∀ p, p <+: folder → t.node? p = some .folder

theorem inside_nil (t : FileTree) : t.Inside [] := by
  intro p hp
  rw [List.prefix_nil.mp hp]
  rfl

theorem Inside.dropLast (h : t.Inside folder) : t.Inside folder.dropLast :=
  fun p hp => h p (hp.trans (List.dropLast_prefix folder))

theorem Inside.concat (h : t.Inside folder) (hs : t.node? (folder ++ [step]) = some .folder) :
    t.Inside (folder ++ [step]) := by
  intro p hp
  rcases List.prefix_concat_iff.mp hp with rfl | hp
  · exact hs
  · exact h p hp

theorem isName_ne (h : isName step = true) : ¬(step = "" ∨ step = ".") ∧ step ≠ ".." := by
  simp only [isName, Bool.and_eq_true, decide_eq_true_eq] at h
  exact ⟨not_or.mpr ⟨h.1.1.1.1, h.1.1.1.2⟩, h.1.1.2⟩

theorem enter?_eq_some_iff : enter? false t folder step = some (t', folder') ↔
    t' = t ∧ ((step = "" ∨ step = ".") ∧ folder' = folder ∨
      step = ".." ∧ folder' = folder.dropLast ∨
      isName step = true ∧ folder' = folder ++ [step] ∧ t.node? folder' = some .folder) := by
  constructor
  · intro he
    rw [enter?] at he
    split at he
    · next hstay =>
      cases he
      exact ⟨rfl, .inl ⟨hstay, rfl⟩⟩
    · split at he
      · next hup =>
        cases he
        exact ⟨rfl, .inr (.inl ⟨hup, rfl⟩)⟩
      · split at he
        · cases he
        · next hname =>
          dsimp only at he
          split at he
          · next hs =>
            cases he
            exact ⟨rfl, .inr (.inr ⟨by simpa using hname, rfl, hs⟩)⟩
          · cases he
          · cases he
  · rintro ⟨rfl, ⟨hstay, rfl⟩ | ⟨rfl, rfl⟩ | ⟨hname, rfl, hs⟩⟩
    · rw [enter?, if_pos hstay]
    · rw [enter?, if_neg (by decide), if_pos rfl]
    · obtain ⟨hstay, hup⟩ := isName_ne hname
      rw [enter?, if_neg hstay, if_neg hup, if_neg (by simp [hname])]
      dsimp only
      rw [hs]

theorem enter?_inside (h : t.Inside folder)
    (he : enter? false t folder step = some (t', folder')) : t' = t ∧ t.Inside folder' := by
  obtain ⟨rfl, ⟨-, rfl⟩ | ⟨-, rfl⟩ | ⟨-, rfl, hs⟩⟩ := enter?_eq_some_iff.mp he
  · exact ⟨rfl, h⟩
  · exact ⟨rfl, h.dropLast⟩
  · exact ⟨rfl, h.concat hs⟩

theorem enter?_put (hplace : t.node? place ≠ some .folder)
    (he : enter? false t folder step = some (t', folder')) :
    enter? false (t.put place n) folder step = some (t.put place n, folder') := by
  obtain ⟨-, hstay | hup | ⟨hname, hfolder, hs⟩⟩ := enter?_eq_some_iff.mp he
  · exact enter?_eq_some_iff.mpr ⟨rfl, .inl hstay⟩
  · exact enter?_eq_some_iff.mpr ⟨rfl, .inr (.inl hup)⟩
  · have hne : folder' ≠ place := by
      rintro rfl
      exact hplace hs
    exact enter?_eq_some_iff.mpr
      ⟨rfl, .inr (.inr ⟨hname, hfolder, by rw [node?_put_of_ne hne, hs]⟩)⟩

theorem foldlM_enter? {steps : List String} (place : List String) (n : FileNode)
    (h : t.Inside folder)
    (hw : steps.foldlM (fun s step => enter? false s.1 s.2 step) (t, folder) =
      some (t', folder')) :
    t' = t ∧ t.Inside folder' ∧ (t.node? place ≠ some .folder →
      steps.foldlM (fun s step => enter? false s.1 s.2 step) (t.put place n, folder) =
        some (t.put place n, folder')) := by
  induction steps generalizing folder with
  | nil =>
    cases hw
    exact ⟨rfl, h, fun _ => rfl⟩
  | cons step steps ih =>
    rw [List.foldlM_cons] at hw
    simp only [Option.bind_eq_bind, Option.bind_eq_some_iff] at hw
    obtain ⟨⟨t₁, folder₁⟩, hstep, hrest⟩ := hw
    obtain ⟨rfl, hinside⟩ := enter?_inside h hstep
    obtain ⟨ht, hinside', hput⟩ := ih hinside hrest
    refine ⟨ht, hinside', fun hplace => ?_⟩
    rw [List.foldlM_cons, enter?_put hplace hstep, Option.bind_eq_bind, Option.bind_some]
    exact hput hplace

/-- A path that leads to a place which is no folder leads there after something was put there. -/
theorem locate?_put {path : String} (hl : t.locate? path = some place)
    (hplace : t.node? place ≠ some .folder) : (t.put place n).locate? path = some place := by
  simp only [locate?, Option.bind_eq_bind, Option.bind_eq_some_iff] at hl
  obtain ⟨⟨t₁, folder⟩, hwalk, hl⟩ := hl
  obtain ⟨rfl, hinside, hput⟩ := foldlM_enter? place n (inside_nil t) hwalk
  have hwalk' : walk? false (t₁.put place n) (steps path).dropLast =
      some (t₁.put place n, folder) := hput hplace
  rw [locate?, hwalk', Option.bind_eq_bind, Option.bind_some]
  dsimp only at hl ⊢
  split at hl
  · next hname => rw [if_pos hname, hl]
  · -- the last step leads to a folder, which the place is not
    obtain ⟨⟨t₂, folder'⟩, he, rfl⟩ := Option.map_eq_some_iff.mp hl
    exact absurd ((enter?_inside hinside he).2 folder' List.prefix_rfl) hplace

/-- A file that was written is read as it was written. -/
theorem read?_writeDeep {path : String} {content : ByteArray}
    (h : t.writeDeep path content = (t', true)) : t'.read? path = some content := by
  unfold writeDeep at h
  split at h
  · cases h
  · next t₁ _ =>
    split at h
    · next t₂ hwrite =>
      cases h
      simp only [write?, Option.bind_eq_bind, Option.bind_eq_some_iff] at hwrite
      obtain ⟨place, hl, hw⟩ := hwrite
      split at hw
      · cases hw
      · next hplace =>
        cases hw
        have hne : place ≠ [] := by
          rintro rfl
          exact hplace rfl
        rw [read?, locate?_put hl hplace, Option.bind_some, node?_put_self hne]
    · cases h

end Engraver.FileTree
