import DomainAtlas.Proofs.Lists
import DomainAtlas.Proofs.Editing.Clean
import DomainAtlas.Proofs.Editing.Steps

/-! # Models that grow

Whatever an edit adds, it adds in one context or to the map. So it is enough to see what becomes of one context,
and that nothing that was declared is lost.
-/
set_option autoImplicit false

namespace DomainAtlas

namespace Model

variable {model changed : Model}

theorem Supports.mono {relationship : Relationship} (h : model.Supports relationship)
    (hContexts : ∀ name ∈ model.contextNames, name ∈ changed.contextNames)
    (hDeclares : ∀ context aggregate, model.Declares context aggregate → changed.Declares context aggregate) :
    changed.Supports relationship where
  first := hContexts _ h.first
  second := hContexts _ h.second
  exposed directed hDirected hSelf name hName := hDeclares _ _ (h.exposed directed hDirected hSelf name hName)

/-! ## A new context -/

theorem Clean.addContext (h : model.Clean) {name : String} (hNew : name ∉ model.contextNames) :
    Clean { model with boundedContexts := model.boundedContexts ++ [{ name }] } := by
  have hNames : (model.boundedContexts ++ [({ name } : BoundedContext)]).map (·.name) =
      model.contextNames ++ [name] := by
    rw [List.map_append]
    rfl
  have hAggregates : (model.boundedContexts ++ [({ name } : BoundedContext)]).flatMap BoundedContext.aggregateList =
      model.aggregateList := by
    rw [List.flatMap_append, Model.aggregateList]
    exact List.append_nil _
  have hKnown : ∀ other ∈ model.contextNames,
      other ∈ (model.boundedContexts ++ [({ name } : BoundedContext)]).map (·.name) := by
    intro other hOther
    rw [hNames]
    exact List.mem_append_left _ hOther
  refine ⟨?_, ?_, ?_, ?_, ?_, ?_⟩
  · rw [contextNames, hNames, List.nodup_append]
    refine ⟨h.contexts, List.nodup_singleton name, ?_⟩
    rintro other hOther _ hName rfl
    obtain rfl := List.mem_singleton.mp hName
    exact hNew hOther
  · intro context hContext
    rcases List.mem_append.mp hContext with hOld | hFresh
    · exact h.aggregates context hOld
    · obtain rfl := List.mem_singleton.mp hFresh
      exact List.nodup_nil
  · rw [objectNames, aggregateList, hAggregates]
    exact h.objects
  · intro map hMap other hOther
    exact hKnown other (h.contained map hMap other hOther)
  · intro map hMap relationship hMem
    refine (h.relationships map hMap relationship hMem).mono hKnown ?_
    rintro context aggregate ⟨found, hFound, hName, hDeclared⟩
    exact ⟨found, List.mem_append_left _ hFound, hName, hDeclared⟩
  · intro aggregate hMem
    rw [aggregateList, hAggregates] at hMem
    exact h.names aggregate hMem

end Model

/-! ## A change in one context -/

namespace BoundedContext

def objectNames (context : BoundedContext) : List String :=
  context.aggregateList.flatMap Aggregate.objectNames

/-- What a clean model asks of each of its contexts for itself. -/
structure Tidy (context : BoundedContext) : Prop where
  aggregates : (context.aggregateList.map (·.name)).Nodup
  names : ∀ aggregate ∈ context.aggregateList, ∀ name ∈ aggregate.guardedNames, reservedSpelling? name = none

/-- The context keeps its name and its aggregates, stays tidy, and gets the names `fresh` for new members. -/
structure GrowsTo (context grown : BoundedContext) (fresh : List String) : Prop where
  name : grown.name = context.name
  tidy : context.Tidy → grown.Tidy
  declared : ∀ name ∈ context.aggregateList.map (·.name), name ∈ grown.aggregateList.map (·.name)
  objects : grown.objectNames.Perm (fresh ++ context.objectNames)

end BoundedContext

namespace Model

variable {model : Model} {front back : List BoundedContext} {context grown : BoundedContext} {fresh : List String}

theorem objectNames_replace (hSplit : model.boundedContexts = front ++ context :: back)
    (hGrows : context.GrowsTo grown fresh) :
    ({ model with boundedContexts := front ++ grown :: back } : Model).objectNames.Perm
      (fresh ++ model.objectNames) := by
  have hSplitNames (middle : BoundedContext) :
      ({ model with boundedContexts := front ++ middle :: back } : Model).objectNames =
        front.flatMap BoundedContext.objectNames ++
          (middle.objectNames ++ back.flatMap BoundedContext.objectNames) := by
    rw [objectNames, aggregateList, List.flatMap_assoc, List.flatMap_append, List.flatMap_cons]
    rfl
  have hOld : model.objectNames = front.flatMap BoundedContext.objectNames ++
      (context.objectNames ++ back.flatMap BoundedContext.objectNames) := by
    rw [← hSplitNames, ← hSplit]
  rw [hSplitNames, hOld]
  exact perm_append_middle hGrows.objects

theorem Clean.tidy (h : model.Clean) (hMem : context ∈ model.boundedContexts) : context.Tidy where
  aggregates := h.aggregates context hMem
  names aggregate hAggregate := h.names aggregate (List.mem_flatMap.mpr ⟨context, hMem, hAggregate⟩)

theorem Clean.replace (h : model.Clean) (hSplit : model.boundedContexts = front ++ context :: back)
    (hGrows : context.GrowsTo grown fresh) (hFresh : fresh.Nodup)
    (hNew : ∀ name ∈ fresh, name ∉ model.objectNames) :
    Clean { model with boundedContexts := front ++ grown :: back } := by
  have hContexts : ({ model with boundedContexts := front ++ grown :: back } : Model).contextNames =
      model.contextNames := by
    rw [contextNames, contextNames, hSplit, List.map_append, List.map_cons, hGrows.name, List.map_append,
      List.map_cons]
  have hTidy : ∀ other ∈ front ++ grown :: back, other.Tidy := by
    intro other hMem
    rw [List.mem_append, List.mem_cons] at hMem
    rcases hMem with hMem | rfl | hMem
    · exact h.tidy (hSplit ▸ List.mem_append_left _ hMem)
    · exact hGrows.tidy (h.tidy (hSplit ▸ List.mem_append_right _ List.mem_cons_self))
    · exact h.tidy (hSplit ▸ List.mem_append_right _ (List.mem_cons_of_mem _ hMem))
  refine ⟨?_, ?_, ?_, ?_, ?_, ?_⟩
  · rw [hContexts]
    exact h.contexts
  · intro other hMem
    exact (hTidy other hMem).aggregates
  · rw [(objectNames_replace hSplit hGrows).nodup_iff, List.nodup_append]
    refine ⟨hFresh, h.objects, ?_⟩
    rintro name hMem _ hUsed rfl
    exact hNew name hMem hUsed
  · intro map hMap name hName
    rw [hContexts]
    exact h.contained map hMap name hName
  · intro map hMap relationship hMem
    refine (h.relationships map hMap relationship hMem).mono (fun name hName => hContexts ▸ hName) ?_
    rintro target aggregate ⟨found, hFound, hName, hDeclared⟩
    rw [hSplit, List.mem_append, List.mem_cons] at hFound
    rcases hFound with hFound | rfl | hFound
    · exact ⟨found, List.mem_append_left _ hFound, hName, hDeclared⟩
    · exact ⟨grown, List.mem_append_right _ List.mem_cons_self, hGrows.name.trans hName,
        hGrows.declared aggregate hDeclared⟩
    · exact ⟨found, List.mem_append_right _ (List.mem_cons_of_mem _ hFound), hName, hDeclared⟩
  · intro aggregate hMem
    obtain ⟨other, hOther, hAggregate⟩ := List.mem_flatMap.mp hMem
    exact (hTidy other hOther).names aggregate hAggregate

/-- The change of the context that was looked up. -/
theorem Clean.modifyContext (h : model.Clean) {name : String} {placed : PlacedContext}
    {change : BoundedContext → BoundedContext} (hPlaced : model.findContext? name = some placed)
    (hGrows : placed.context.GrowsTo (change placed.context) fresh) (hFresh : fresh.Nodup)
    (hNew : ∀ name ∈ fresh, name ∉ model.objectNames) :
    (model.modifyContext placed.index change).Clean ∧
      (model.modifyContext placed.index change).objectNames.Perm (fresh ++ model.objectNames) := by
  obtain ⟨-, front, back, hSplit, hModify⟩ := findContext?_eq_some hPlaced
  rw [hModify]
  exact ⟨h.replace hSplit hGrows hFresh hNew, objectNames_replace hSplit hGrows⟩

end Model

/-! ## Modules and aggregates -/

namespace BoundedContext

variable {context : BoundedContext} {name : String}

theorem aggregateList_appendModule (context : BoundedContext) (name : String) :
    ({ context with modules := context.modules ++ [{ name }] } : BoundedContext).aggregateList =
      context.aggregateList := by
  rw [aggregateList, List.flatMap_append]
  simp [aggregateList]

theorem growsTo_appendModule (context : BoundedContext) (name : String) :
    context.GrowsTo { context with modules := context.modules ++ [{ name }] } [] := by
  have hSame := aggregateList_appendModule context name
  refine ⟨rfl, fun hTidy => ⟨?_, ?_⟩, fun other hOther => ?_, ?_⟩
  · rw [hSame]
    exact hTidy.aggregates
  · rw [hSame]
    exact hTidy.names
  · rw [hSame]
    exact hOther
  · rw [objectNames, hSame]
    exact List.Perm.refl _

theorem aggregateList_appendAggregate {position : Option Nat}
    (h : ∀ index ∈ position, ∃ found, (found, index) ∈ context.modules.zipIdx) :
    ∃ front back, context.aggregateList = front ++ back ∧
      (context.appendAggregate name position).aggregateList = front ++ { name } :: back := by
  cases position with
  | none =>
    refine ⟨context.aggregates, context.modules.flatMap (·.aggregates), rfl, ?_⟩
    rw [appendAggregate, aggregateList, List.append_assoc]
    rfl
  | some index =>
    obtain ⟨found, hFound⟩ := h index rfl
    obtain ⟨modulesFront, modulesBack, hSplit, hModify⟩ := exists_split_of_mem_zipIdx hFound
    refine ⟨context.aggregates ++ modulesFront.flatMap (·.aggregates) ++ found.aggregates,
      modulesBack.flatMap (·.aggregates), ?_, ?_⟩
    · simp [aggregateList, hSplit]
    · simp [appendAggregate, aggregateList, hModify]

theorem growsTo_appendAggregate {position : Option Nat}
    (hPosition : ∀ index ∈ position, ∃ found, (found, index) ∈ context.modules.zipIdx)
    (hNew : name ∉ context.aggregateList.map (·.name)) (hAllowed : reservedSpelling? name = none) :
    context.GrowsTo (context.appendAggregate name position) [] := by
  obtain ⟨front, back, hOld, hGrown⟩ := @aggregateList_appendAggregate context name position hPosition
  refine ⟨?_, fun hTidy => ⟨?_, ?_⟩, fun other hOther => ?_, ?_⟩
  · cases position <;> rfl
  · rw [hGrown, List.map_append, List.map_cons, List.perm_middle.nodup_iff, List.nodup_cons, ← List.map_append,
      ← hOld]
    exact ⟨hNew, hTidy.aggregates⟩
  · intro aggregate hMem guarded hGuarded
    rw [hGrown, List.perm_middle.mem_iff, List.mem_cons, ← hOld] at hMem
    rcases hMem with rfl | hMem
    · obtain rfl := List.mem_singleton.mp hGuarded
      exact hAllowed
    · exact hTidy.names aggregate hMem guarded hGuarded
  · rw [hGrown, List.map_append, List.map_cons, List.perm_middle.mem_iff, ← List.map_append, ← hOld]
    exact List.mem_cons_of_mem _ hOther
  · rw [objectNames, objectNames, hGrown, hOld, List.flatMap_append, List.flatMap_cons, List.flatMap_append]
    exact List.Perm.refl _

end BoundedContext

/-! ## Members -/

/-- The names that a member adds to those that the model shares. -/
def Member.sharedNames (member : Member) : List String :=
  if member.kind.sharesNames then [member.name] else []

theorem objectNames_append (aggregate : Aggregate) (member : Member) :
    (aggregate.append member).objectNames.Perm (member.sharedNames ++ aggregate.objectNames) := by
  rw [List.perm_iff_count]
  intro name
  cases member <;>
    simp only [Aggregate.objectNames, Aggregate.append, Member.sharedNames, Member.kind, Member.name,
      MemberKind.sharesNames, List.map_append, List.map_cons, List.map_nil, List.count_append, if_true,
      Bool.false_eq_true, if_false, List.count_nil] <;>
    omega

theorem mem_guardedNames_append {aggregate : Aggregate} {member : Member} {name : String} :
    name ∈ (aggregate.append member).guardedNames ↔ name = member.name ∨ name ∈ aggregate.guardedNames := by
  cases member <;>
    simp only [Aggregate.guardedNames, Aggregate.objectNames, Aggregate.append, Member.name, List.map_append,
      List.map_cons, List.map_nil, List.mem_append, List.mem_cons, List.not_mem_nil, or_false] <;>
    tauto

theorem BoundedContext.growsTo_append {context : BoundedContext} {target : PlacedAggregate} {member : Member}
    (hTarget : target ∈ context.placedAggregates) (hAllowed : reservedSpelling? member.name = none) :
    context.GrowsTo (context.modifyAggregate target.place fun changed => changed.append member)
      member.sharedNames := by
  obtain ⟨front, back, hOld, hModify⟩ := mem_placedAggregates hTarget
  have hGrown := hModify fun changed => changed.append member
  have hNames : (context.modifyAggregate target.place fun changed => changed.append member).aggregateList.map
      (·.name) = context.aggregateList.map (·.name) := by
    rw [hGrown, hOld, List.map_append, List.map_cons, name_append, List.map_append, List.map_cons]
  refine ⟨name_modifyAggregate context target.place _, fun hTidy => ⟨?_, ?_⟩, fun name hName => ?_, ?_⟩
  · rw [hNames]
    exact hTidy.aggregates
  · intro aggregate hMem name hName
    rw [hGrown, List.perm_middle.mem_iff, List.mem_cons] at hMem
    have hKept : ∀ kept ∈ target.aggregate :: (front ++ back), ∀ name ∈ kept.guardedNames,
        reservedSpelling? name = none := by
      intro kept hKept
      refine hTidy.names kept ?_
      rw [hOld]
      exact List.perm_middle.mem_iff.mpr hKept
    rcases hMem with rfl | hMem
    · rcases mem_guardedNames_append.mp hName with rfl | hName
      · exact hAllowed
      · exact hKept target.aggregate List.mem_cons_self name hName
    · exact hKept aggregate (List.mem_cons_of_mem _ hMem) name hName
  · rw [hNames]
    exact hName
  · rw [objectNames, objectNames, hGrown, hOld, List.flatMap_append, List.flatMap_cons, List.flatMap_append,
      List.flatMap_cons]
    exact perm_append_middle (objectNames_append target.aggregate member)

end DomainAtlas
