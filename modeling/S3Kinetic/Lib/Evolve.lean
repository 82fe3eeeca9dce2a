import S3Kinetic.Lib.OrdMap

/-!
# Evolutions of a map

`Evolves W D m n`: the map `n` comes out of `m` by a sequence of writes, each either a binding that
`W` allows or the removal of a key that `D` allows. Saying once which writes an operation makes
gives both what it leaves alone (`Evolves.get?_eq`) and what it preserves (`Evolves.invariant`).
-/

namespace OrdMap

variable {α β : Type*} [LinearOrder α]

inductive Evolves (W : α → β → Prop) (D : α → Prop) : OrdMap α β → OrdMap α β → Prop where
  | refl (m : OrdMap α β) : Evolves W D m m
  | insert {m n : OrdMap α β} {k : α} {v : β} : Evolves W D m n → W k v →
    Evolves W D m (n.insert k v)
  | erase {m n : OrdMap α β} {k : α} : Evolves W D m n → D k → Evolves W D m (n.erase k)

namespace Evolves

variable {W W' : α → β → Prop} {D D' : α → Prop} {m n o : OrdMap α β}

theorem trans (h1 : Evolves W D m n) (h2 : Evolves W D n o) : Evolves W D m o := by
  induction h2 with
  | refl => exact h1
  | insert _ hw ih => exact ih.insert hw
  | erase _ hd ih => exact ih.erase hd

theorem mono (h : Evolves W D m n) (hW : ∀ k v, W k v → W' k v) (hD : ∀ k, D k → D' k) :
    Evolves W' D' m n := by
  induction h with
  | refl => exact .refl m
  | insert _ hw ih => exact ih.insert (hW _ _ hw)
  | erase _ hd ih => exact ih.erase (hD _ hd)

theorem get?_eq (h : Evolves W D m n) {k : α} (hW : ∀ v, ¬ W k v) (hD : ¬ D k) :
    n.get? k = m.get? k := by
  induction h with
  | refl => rfl
  | @insert n' k' v _ hw ih =>
    rw [get?_insert_of_ne, ih]
    rintro rfl
    exact hW v hw
  | @erase n' k' _ hd ih =>
    rw [get?_erase_of_ne, ih]
    rintro rfl
    exact hD hd

theorem invariant {I : α → β → Prop} (h : Evolves W D m n) (hW : ∀ k v, W k v → I k v)
    (hm : ∀ k v, m.get? k = some v → I k v) : ∀ k v, n.get? k = some v → I k v := by
  induction h with
  | refl => exact hm
  | @insert n' k' v' _ hw ih =>
    intro k v hv
    rw [get?_insert] at hv
    split at hv
    · next e => cases hv; subst e; exact hW _ _ hw
    · exact ih k v hv
  | @erase n' k' _ hd ih =>
    intro k v hv
    rw [get?_erase] at hv
    split at hv
    · cases hv
    · exact ih k v hv

theorem mem_of_mem (h : Evolves W D m n) {k : α} (hk : k ∈ n) : k ∈ m ∨ ∃ v, W k v := by
  obtain ⟨v, hv⟩ := (mem_iff n).1 hk
  refine h.invariant (I := fun k _ => k ∈ m ∨ ∃ v, W k v) (fun k v hw => .inr ⟨v, hw⟩) ?_ k v hv
  exact fun k v hv => .inl ((mem_iff m).2 ⟨v, hv⟩)

end Evolves

end OrdMap
