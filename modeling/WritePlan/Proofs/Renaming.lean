import Mathlib.Data.Multiset.MapFold
import WritePlan.Proofs.LevelOrder

namespace WritePlan

/-- The sets in their order, each of them in no order. -/
def bags {α : Type} (sets : List (List α)) : List (Multiset α) :=
  sets.map Multiset.ofList

theorem bags_map {α β : Type} (f : α → β) (sets : List (List α)) :
    bags (sets.map (·.map f)) = (bags sets).map (Multiset.map f) := by
  rw [bags, bags, List.map_map, List.map_map]
  rfl

theorem inSet_map {α β : Type} {f : α → β} {sets : List (List α)} {k : Nat} {b : β} :
    InSet (sets.map (·.map f)) k b ↔ ∃ a, InSet sets k a ∧ f a = b := by
  simp only [InSet, List.getElem?_map, Option.map_eq_some_iff]
  constructor
  · intro h
    obtain ⟨_, ⟨set, hset, rfl⟩, hb⟩ := h
    obtain ⟨a, ha, hab⟩ := List.mem_map.mp hb
    exact ⟨a, ⟨set, hset, ha⟩, hab⟩
  · intro h
    obtain ⟨a, ⟨set, hset, ha⟩, hab⟩ := h
    exact ⟨_, ⟨set, hset, rfl⟩, List.mem_map.mpr ⟨a, ha, hab⟩⟩

namespace Multigraph

variable {V W E F : Type} [DecidableEq V] [DecidableEq W] {g : Multigraph V E}
  {g' : Multigraph W F} {f : V → W} {sets : List (List V)}

/-- The vertices of the one graph are those of the other under new names, and so are the edges. -/
structure Renaming (g : Multigraph V E) (g' : Multigraph W F) (f : V → W) : Prop where
  vertices : (g.vertices.map f).Perm g'.vertices
  edges : ∀ u ∈ g.vertices, ∀ v ∈ g.vertices, g.HasEdge u v ↔ g'.HasEdge (f u) (f v)

theorem Division.mem_vertices (h : g.Division sets) {k : Nat} {v : V} (hv : InSet sets k v) :
    v ∈ g.vertices :=
  h.perm.mem_iff.mp (mem_flatten_iff.mpr ⟨k, hv⟩)

namespace Levelled

/-- Levels under new names are those of the renamed graph. -/
theorem rename (h : g.Levelled sets) (hf : Renaming g g' f) :
    g'.Levelled (sets.map (·.map f)) where
  perm := by
    rw [← List.map_flatten]
    exact (h.perm.map f).trans hf.vertices
  forward u v i j huv hu hv := by
    obtain ⟨a, ha, rfl⟩ := inSet_map.mp hu
    obtain ⟨b, hb, rfl⟩ := inSet_map.mp hv
    have hab := (hf.edges a (h.mem_vertices ha) b (h.mem_vertices hb)).mpr huv
    exact h.forward a b i j hab ha hb
  nonempty hnil := by
    obtain ⟨set, hset, hempty⟩ := List.mem_map.mp hnil
    exact h.nonempty (List.map_eq_nil_iff.mp hempty ▸ hset)
  reached k v hv := by
    obtain ⟨b, hb, rfl⟩ := inSet_map.mp hv
    obtain ⟨a, hab, ha⟩ := h.reached k b hb
    have hedge := (hf.edges a (h.mem_vertices ha) b (h.mem_vertices hb)).mp hab
    exact ⟨f a, hedge, inSet_map.mpr ⟨a, ha, rfl⟩⟩

/-- A graph has its levels in one way only, up to the order within each. -/
theorem unique (hg : g.Indexed) (h : g.Levelled sets) {others : List (List V)}
    (ho : g.Levelled others) : bags sets = bags others := by
  have hlength : sets.length = others.length :=
    Nat.le_antisymm (h.length_le hg ho.toDivision) (ho.length_le hg h.toDivision)
  have hnodup {sets : List (List V)} (h : g.Levelled sets) : ∀ set ∈ sets, set.Nodup :=
    (List.nodup_flatten.mp (h.perm.nodup_iff.mpr hg.unique)).1
  have hmem {sets others : List (List V)} (h : g.Levelled sets) (ho : g.Levelled others) {k : Nat}
      {v : V} (hv : InSet sets k v) : InSet others k v := by
    have hvertex := h.mem_vertices hv
    exact (ho.inSet_iff hg hvertex).mpr ((h.inSet_iff hg hvertex).mp hv)
  refine List.ext_getElem (by simpa [bags] using hlength) fun k hk hk' => ?_
  rw [bags, List.length_map] at hk hk'
  simp only [bags, List.getElem_map]
  rw [Multiset.coe_eq_coe,
    List.perm_ext_iff_of_nodup (hnodup h _ (List.getElem_mem hk))
      (hnodup ho _ (List.getElem_mem hk'))]
  have hin {sets : List (List V)} {v : V} (hk : k < sets.length) :
      v ∈ sets[k] ↔ InSet sets k v := by
    simp [InSet, List.getElem?_eq_getElem hk]
  intro v
  rw [hin hk, hin hk']
  exact ⟨hmem h ho, hmem ho h⟩

end Levelled

/-- Where a graph has levels, every renaming of it has the same under the new names. -/
theorem levels_rename (hg : g.Indexed) (hg' : g'.Indexed) (hf : Renaming g g' f)
    (h : g.levels = .ok sets) :
    ∃ sets', g'.levels = .ok sets' ∧ bags sets' = (bags sets).map (Multiset.map f) := by
  have hrenamed := (levelled_of_levels hg h).rename hf
  obtain ⟨sets', hsets'⟩ := (levels_isOk_iff hg').mpr (hrenamed.acyclic hg')
  refine ⟨sets', hsets', ?_⟩
  rw [(levelled_of_levels hg' hsets').unique hg' hrenamed, bags_map]

end Multigraph

end WritePlan
