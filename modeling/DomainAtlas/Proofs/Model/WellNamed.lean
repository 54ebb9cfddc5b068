import DomainAtlas.Proofs.Lists
import DomainAtlas.Proofs.Model.WellFormed

/-! # Well-named models

A model is well-named when its names are words and its types are in canonical form. What it may still do and a
well-formed model may not is to repeat a pattern in a relationship.
-/
set_option autoImplicit false

namespace DomainAtlas

open Text (isWord)

structure DirectedRelationship.WellNamed (relationship : DirectedRelationship) : Prop where
  upstream : isWord relationship.upstream = true
  downstream : isWord relationship.downstream = true
  exposedAggregates : ∀ name ∈ relationship.exposedAggregates, isWord name = true

def Relationship.WellNamed : Relationship → Prop
  | symmetric _ first second => isWord first = true ∧ isWord second = true
  | directed relationship => relationship.WellNamed

structure ContextMap.WellNamed (map : ContextMap) : Prop where
  name : ∀ name ∈ map.name, isWord name = true
  mapType : ∀ word ∈ map.mapType, isWord word = true
  contains : ∀ name ∈ map.contains, isWord name = true
  relationships : ∀ relationship ∈ map.relationships, relationship.WellNamed

structure Model.WellNamed (model : Model) : Prop where
  name : model.name = ""
  contextMap : ∀ map ∈ model.contextMap, map.WellNamed
  boundedContexts : ∀ context ∈ model.boundedContexts, context.WellFormed

/-! ## Repeated patterns -/

/-- Keeps the first of each pattern. -/
def DirectedRelationship.distinctPatterns (relationship : DirectedRelationship) : DirectedRelationship :=
  { relationship with
    upstreamPatterns := relationship.upstreamPatterns.eraseDups
    downstreamPatterns := relationship.downstreamPatterns.eraseDups }

def Relationship.distinctPatterns : Relationship → Relationship
  | symmetric kind first second => .symmetric kind first second
  | directed relationship => .directed relationship.distinctPatterns

def ContextMap.distinctPatterns (map : ContextMap) : ContextMap :=
  { map with relationships := map.relationships.map Relationship.distinctPatterns }

def Model.distinctPatterns (model : Model) : Model :=
  { model with contextMap := model.contextMap.map ContextMap.distinctPatterns }

def DirectedRelationship.PatternsDistinct (relationship : DirectedRelationship) : Prop :=
  relationship.upstreamPatterns.Nodup ∧ relationship.downstreamPatterns.Nodup

def Relationship.PatternsDistinct : Relationship → Prop
  | symmetric .. => True
  | directed relationship => relationship.PatternsDistinct

/-- No relationship repeats a pattern. -/
def Model.PatternsDistinct (model : Model) : Prop :=
  ∀ map ∈ model.contextMap, ∀ relationship ∈ map.relationships, relationship.PatternsDistinct

theorem eraseDups_eq_self_iff {α : Type} [BEq α] [LawfulBEq α] {values : List α} :
    values.eraseDups = values ↔ values.Nodup := by
  constructor
  · intro h
    rw [← h]
    exact nodup_eraseDups values
  · exact eraseDups_of_nodup

theorem Relationship.distinctPatterns_eq_self_iff {relationship : Relationship} :
    relationship.distinctPatterns = relationship ↔ relationship.PatternsDistinct := by
  cases relationship with
  | symmetric kind first second => exact iff_of_true rfl trivial
  | directed relationship =>
    obtain ⟨upstream, downstream, upstreamPatterns, downstreamPatterns, exposed, technology⟩ := relationship
    simp [distinctPatterns, DirectedRelationship.distinctPatterns, PatternsDistinct,
      DirectedRelationship.PatternsDistinct, eraseDups_eq_self_iff]

theorem ContextMap.distinctPatterns_eq_self_iff {map : ContextMap} :
    map.distinctPatterns = map ↔ ∀ relationship ∈ map.relationships, relationship.PatternsDistinct := by
  obtain ⟨name, mapType, state, contained, relationships⟩ := map
  have hMap : relationships.map Relationship.distinctPatterns = relationships.map id ↔
      ∀ relationship ∈ relationships, relationship.PatternsDistinct := by
    simp only [List.map_inj_left, id_eq, Relationship.distinctPatterns_eq_self_iff]
  simpa [ContextMap.distinctPatterns] using hMap

theorem Model.distinctPatterns_eq_self_iff {model : Model} :
    model.distinctPatterns = model ↔ model.PatternsDistinct := by
  obtain ⟨name, map?, contexts⟩ := model
  cases map? with
  | none => simp [distinctPatterns, PatternsDistinct]
  | some map => simp [distinctPatterns, PatternsDistinct, ContextMap.distinctPatterns_eq_self_iff]

/-! ## Well-formed models -/

theorem Relationship.wellFormed_iff {relationship : Relationship} :
    relationship.WellFormed ↔ relationship.WellNamed ∧ relationship.PatternsDistinct := by
  cases relationship with
  | symmetric kind first second => exact (and_iff_left trivial).symm
  | directed relationship =>
    constructor
    · intro h
      exact ⟨⟨h.upstream, h.downstream, h.exposedAggregates⟩, h.upstreamPatterns, h.downstreamPatterns⟩
    · rintro ⟨h, hUpstream, hDownstream⟩
      exact ⟨h.upstream, h.downstream, hUpstream, hDownstream, h.exposedAggregates⟩

theorem ContextMap.wellFormed_iff {map : ContextMap} :
    map.WellFormed ↔ map.WellNamed ∧ ∀ relationship ∈ map.relationships, relationship.PatternsDistinct := by
  constructor
  · intro h
    have hRelationships := fun relationship hMem => Relationship.wellFormed_iff.mp (h.relationships relationship hMem)
    exact ⟨⟨h.name, h.mapType, h.contains, fun relationship hMem => (hRelationships relationship hMem).1⟩,
      fun relationship hMem => (hRelationships relationship hMem).2⟩
  · rintro ⟨h, hDistinct⟩
    exact ⟨h.name, h.mapType, h.contains, fun relationship hMem =>
      Relationship.wellFormed_iff.mpr ⟨h.relationships relationship hMem, hDistinct relationship hMem⟩⟩

theorem Model.wellFormed_iff {model : Model} : model.WellFormed ↔ model.WellNamed ∧ model.PatternsDistinct := by
  constructor
  · intro h
    have hMap := fun map hMem => ContextMap.wellFormed_iff.mp (h.contextMap map hMem)
    exact ⟨⟨h.name, fun map hMem => (hMap map hMem).1, h.boundedContexts⟩, fun map hMem => (hMap map hMem).2⟩
  · rintro ⟨h, hDistinct⟩
    exact ⟨h.name, fun map hMem => ContextMap.wellFormed_iff.mpr ⟨h.contextMap map hMem, hDistinct map hMem⟩,
      h.boundedContexts⟩

end DomainAtlas
