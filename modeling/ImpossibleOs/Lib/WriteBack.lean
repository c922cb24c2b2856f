import Mathlib.Logic.Function.Basic

/-!
Write-back caches.

A cache has lines, each empty or with a key, and stands before a device.
`Coherent` ties the lines and the device to one view of the contents: a line
holds what the view has, a clean one is also on the device, and what is not
cached is on the device. The device may hold anything under a dirty line.
-/

namespace WriteBack

open Function

variable {ι κ δ : Type*}

structure Line (κ δ : Type*) where
  tag : Option κ
  dirty : Bool
  data : δ

structure Coherent (lines : ι → Line κ δ) (dev view : κ → δ) : Prop where
  unique : ∀ i j k, (lines i).tag = some k → (lines j).tag = some k → i = j
  held : ∀ i k, (lines i).tag = some k → (lines i).data = view k
  clean : ∀ i k, (lines i).tag = some k → (lines i).dirty = false → dev k = view k
  uncached : ∀ k, (∀ i, (lines i).tag ≠ some k) → dev k = view k

variable {lines : ι → Line κ δ} {dev view : κ → δ} {i : ι} {k : κ} {d : δ}

theorem coherent_empty (h : ∀ i, (lines i).tag = none) : Coherent lines dev dev where
  unique i j k hi _ := by simp [h] at hi
  held i k hi := by simp [h] at hi
  clean i k hi _ := by simp [h] at hi
  uncached _ _ := rfl

section

variable (h : Coherent lines dev view)
include h

theorem Coherent.flushed
    (hclean : ∀ i k, (lines i).tag = some k → (lines i).dirty = false) : dev = view := by
  funext k
  by_cases hk : ∀ i, (lines i).tag ≠ some k
  · exact h.uncached k hk
  · obtain ⟨i, hi⟩ := not_forall.mp hk
    exact h.clean i k (not_not.mp hi) (hclean i k (not_not.mp hi))

theorem Coherent.overwrite {lines' : ι → Line κ δ} {dev' view' : κ → δ} (p : κ → Prop)
    (htag : ∀ i, (lines' i).tag = (lines i).tag) (hin : ∀ k, p k → dev' k = view' k)
    (hout : ∀ k, ¬ p k → dev' k = dev k ∧ view' k = view k)
    (hsynced : ∀ i k, (lines i).tag = some k → p k → (lines' i).data = view' k)
    (hkept : ∀ i k, (lines i).tag = some k → ¬ p k → lines' i = lines i) :
    Coherent lines' dev' view' where
  unique i j k hi hj := h.unique i j k (by rwa [← htag]) (by rwa [← htag])
  held i k hi := by
    rw [htag] at hi
    by_cases hk : p k
    · exact hsynced i k hi hk
    · rw [hkept i k hi hk, (hout k hk).2]
      exact h.held i k hi
  clean i k hi hclean := by
    rw [htag] at hi
    by_cases hk : p k
    · exact hin k hk
    · rw [hkept i k hi hk] at hclean
      rw [(hout k hk).1, (hout k hk).2]
      exact h.clean i k hi hclean
  uncached k hk := by
    by_cases hp : p k
    · exact hin k hp
    · rw [(hout k hp).1, (hout k hp).2]
      exact h.uncached k fun i => by
        rw [← htag]
        exact hk i

theorem Coherent.under {dev' : κ → δ}
    (hdev : ∀ k, dev' k = dev k ∨ ∃ i, (lines i).tag = some k ∧ (lines i).dirty = true) :
    Coherent lines dev' view where
  unique := h.unique
  held := h.held
  clean i k hi hclean := by
    rcases hdev k with hk | ⟨j, hj, hdirty⟩
    · rw [hk]
      exact h.clean i k hi hclean
    · rw [h.unique j i k hj hi, hclean] at hdirty
      cases hdirty
  uncached k hk := by
    rcases hdev k with hd | ⟨j, hj, _⟩
    · rw [hd]
      exact h.uncached k hk
    · exact absurd hj (hk j)

end

theorem Coherent.spoil [DecidableEq κ] (h : Coherent lines dev view)
    (hi : (lines i).tag = some k) (hdirty : (lines i).dirty = true) (junk : δ) :
    Coherent lines (update dev k junk) view := by
  refine h.under fun k' => ?_
  by_cases hk : k' = k
  · subst hk
    exact .inr ⟨i, hi, hdirty⟩
  · exact .inl (update_of_ne hk junk dev)

variable [DecidableEq ι]

section

variable (h : Coherent lines dev view)
include h

theorem Coherent.replace {l : Line κ δ} {dev' view' : κ → δ}
    (hfresh : ∀ k, l.tag = some k → ∀ j, j ≠ i → (lines j).tag ≠ some k)
    (hheld : ∀ k, l.tag = some k → l.data = view' k)
    (hclean : ∀ k, l.tag = some k → l.dirty = false → dev' k = view' k)
    (hdropped : ∀ k, (lines i).tag = some k → l.tag ≠ some k → dev' k = view' k)
    (hframe : ∀ k, (lines i).tag ≠ some k → l.tag ≠ some k → dev' k = dev k ∧ view' k = view k) :
    Coherent (update lines i l) dev' view' := by
  have hother : ∀ j k, j ≠ i → (lines j).tag = some k → dev' k = dev k ∧ view' k = view k := by
    intro j k hj hk
    refine hframe k (fun hi => hj (h.unique j i k hk hi)) fun hl => hfresh k hl j hj hk
  refine ⟨?_, ?_, ?_, ?_⟩
  · intro a b k ha hb
    by_cases hai : a = i <;> by_cases hbi : b = i
    · rw [hai, hbi]
    · rw [hai, update_self] at ha
      rw [update_of_ne hbi] at hb
      exact absurd hb (hfresh k ha b hbi)
    · rw [hbi, update_self] at hb
      rw [update_of_ne hai] at ha
      exact absurd ha (hfresh k hb a hai)
    · rw [update_of_ne hai] at ha
      rw [update_of_ne hbi] at hb
      exact h.unique a b k ha hb
  · intro j k hk
    by_cases hj : j = i
    · subst hj
      rw [update_self] at hk ⊢
      exact hheld k hk
    · rw [update_of_ne hj] at hk ⊢
      rw [(hother j k hj hk).2]
      exact h.held j k hk
  · intro j k hk hd
    by_cases hj : j = i
    · subst hj
      rw [update_self] at hk hd
      exact hclean k hk hd
    · rw [update_of_ne hj] at hk hd
      rw [(hother j k hj hk).1, (hother j k hj hk).2]
      exact h.clean j k hk hd
  · intro k hk
    have hl : l.tag ≠ some k := by simpa using hk i
    by_cases hi : (lines i).tag = some k
    · exact hdropped k hi hl
    · rw [(hframe k hi hl).1, (hframe k hi hl).2]
      refine h.uncached k fun j => ?_
      by_cases hj : j = i
      · rw [hj]
        exact hi
      · have hkj := hk j
        rwa [update_of_ne hj] at hkj

theorem Coherent.drop {l : Line κ δ} (hl : l.tag = none)
    (hclean : (lines i).tag = none ∨ (lines i).dirty = false) :
    Coherent (update lines i l) dev view := by
  refine h.replace (by simp [hl]) (by simp [hl]) (by simp [hl]) ?_ fun _ _ _ => ⟨rfl, rfl⟩
  intro k hk _
  rcases hclean with hnone | hclean
  · rw [hnone] at hk
    cases hk
  · exact h.clean i k hk hclean

theorem Coherent.load
    (hclean : (lines i).tag = none ∨ (lines i).dirty = false) (hk : ∀ j, (lines j).tag ≠ some k) :
    Coherent (update lines i ⟨some k, false, dev k⟩) dev view := by
  refine h.replace ?_ ?_ ?_ ?_ fun _ _ _ => ⟨rfl, rfl⟩
  · rintro _ ⟨⟩ j _
    exact hk j
  · rintro _ ⟨⟩
    exact h.uncached k hk
  · rintro _ ⟨⟩ _
    exact h.uncached k hk
  · intro k' hk' _
    rcases hclean with hnone | hclean
    · rw [hnone] at hk'
      cases hk'
    · exact h.clean i k' hk' hclean

end

variable [DecidableEq κ]

theorem Coherent.store (h : Coherent lines dev view)
    (hi : (lines i).tag = some k ∨ ((lines i).tag = none ∨ (lines i).dirty = false) ∧
      ∀ j, (lines j).tag ≠ some k) :
    Coherent (update lines i ⟨some k, true, d⟩) dev (update view k d) := by
  refine h.replace ?_ ?_ nofun ?_ ?_
  · rintro _ ⟨⟩ j hj hk
    rcases hi with hi | ⟨_, hi⟩
    · exact hj (h.unique j i k hk hi)
    · exact hi j hk
  · rintro _ ⟨⟩
    exact (update_self k d view).symm
  · intro k' hk' hne
    have hkk : k' ≠ k := fun heq => hne (by rw [heq])
    rw [update_of_ne hkk]
    rcases hi with hi | ⟨hnone | hclean, _⟩
    · rw [hi] at hk'
      exact absurd (Option.some.inj hk').symm hkk
    · rw [hnone] at hk'
      cases hk'
    · exact h.clean i k' hk' hclean
  · intro k' _ hne
    refine ⟨rfl, update_of_ne (fun heq => hne ?_) d view⟩
    rw [heq]

theorem Coherent.writeBack (h : Coherent lines dev view) {l : Line κ δ}
    (hi : (lines i).tag = some k) (htag : l.tag = some k) (hdata : l.data = (lines i).data) :
    Coherent (update lines i l) (update dev k (lines i).data) view := by
  have hview : (lines i).data = view k := h.held i k hi
  refine h.replace ?_ ?_ ?_ ?_ ?_
  · intro k' hk' j hj hkj
    rw [htag] at hk'
    cases hk'
    exact hj (h.unique j i k hkj hi)
  · intro k' hk'
    rw [htag] at hk'
    cases hk'
    rw [hdata, hview]
  · intro k' hk' _
    rw [htag] at hk'
    cases hk'
    rw [update_self, hview]
  · intro k' hk' hne
    rw [hi] at hk'
    cases hk'
    exact absurd htag hne
  · intro k' hk' _
    refine ⟨update_of_ne (fun heq => hk' ?_) _ dev, rfl⟩
    rw [heq, hi]

end WriteBack
