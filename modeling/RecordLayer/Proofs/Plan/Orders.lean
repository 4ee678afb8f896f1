import RecordLayer.Proofs.Plan.Execution

/-!
# Declared orders hold over settled indexes

Over settled indexes the records of every part of a fitting plan come in the order that the part
declares, and the records of every child of a merging node strictly ascend on the merge key.

A part of a fitting plan fits as well, so what is known about the runs of fitting plans applies to
every part. Limits stand above fitting plans only; what they leave out does not disturb an order.
-/

namespace RecordLayer.Plan

open CursorNode

/-- The plan is the other one or stands somewhere below it. -/
inductive IsPartOf (part : Plan) : Plan → Prop
  | self : IsPartOf part part
  | union {p : Plan} {children : List Plan} (dedup : Option String) (merge : Option (List String))
    (hp : p ∈ children) (h : IsPartOf part p) : IsPartOf part (.union children dedup merge)
  | intersection {p : Plan} {children : List Plan} (merge : Option (List String))
    (hp : p ∈ children) (h : IsPartOf part p) : IsPartOf part (.intersection children merge)
  | filter {child : Plan} (residual : Filter) (h : IsPartOf part child) :
    IsPartOf part (.filter child residual)
  | limit {child : Plan} (count : Nat) (h : IsPartOf part child) :
      IsPartOf part (.limit child count)

/-- The children that a node merges, with the key on which it does. -/
def Merges : Plan → List String → List Plan → Prop
  | .union children _ (some key), key', children' => key' = key ∧ children' = children
  | .intersection children (some key), key', children' => key' = key ∧ children' = children
  | _, _, _ => False

/-- The plan yields its records in the order that it declares, and what it merges strictly ascends
on the merge key. -/
structure KeepsOrder (c : ExecutionContext) (v : StoreView) (t : RecordType) (p : Plan) : Prop where
  sorted : ∀ o, p.order? t = some o → ∃ out, p.Yields c v out ∧ o.Sorts t out
  merging : ∀ key children, p.Merges key children → ∀ child ∈ children,
    ∃ out, child.Yields c v out ∧ out.Pairwise fun a b => t.compareBy key a b = .lt

variable {v : StoreView} {t : RecordType} {rows : List Record} {c : ExecutionContext} {p : Plan}
  {image : Record → Record}

/-- What is part of a fitting plan fits. -/
theorem Fits.part {catalog : Catalog} (h : Fits catalog t p image) {part : Plan}
    (hpart : part.IsPartOf p) : ∃ image, Fits catalog t part image := by
  induction hpart generalizing image with
  | self => exact ⟨image, h⟩
  | union _ _ hp _ ih =>
    cases h with
    | union hchildren _ => exact ih (hchildren _ hp)
  | intersection _ hp _ ih =>
    cases h with
    | intersection _ hchildren _ => exact ih (hchildren _ hp)
  | filter _ _ ih =>
    cases h with
    | filter hchild _ _ => exact ih hchild
  | limit => cases h

/-- The children that a fitting node merges fit, and the key is the one that their orders share. -/
theorem Fits.merges (h : Fits v.catalog t p image) {key : List String} {children : List Plan}
    (hmerges : p.Merges key children) : (∀ child ∈ children, Fits v.catalog t child id) ∧
      RowOrder.sharedMergeKey (orders t children) t.primaryKey = some key := by
  cases h with
  | @union children' merge hchildren hmerge =>
    cases merge with
    | none => cases hmerges
    | some key' =>
      obtain ⟨rfl, rfl⟩ := hmerges
      exact ⟨hchildren, hmerge key rfl⟩
  | @intersection children' merge _ hchildren hmerge =>
    cases merge with
    | none => cases hmerges
    | some key' =>
      obtain ⟨rfl, rfl⟩ := hmerges
      exact ⟨hchildren, hmerge key rfl⟩
  | fullScan | indexScan | inJoin | filter => cases hmerges

section Settled

variable (hsettled : ∀ i ∈ v.catalog.plannableIndexes t.name, i.Settled v.catalog t)

include hsettled in
/-- **Over settled indexes a fitting plan keeps its order.** -/
theorem Fits.keepsOrder (ho : c.Over v t) (h : v.Serves t rows) (hc : v.catalog.Sound)
    (hcount : rows.length < UInt64.size) (hp : Fits v.catalog t p image) : p.KeepsOrder c v t where
  sorted o hpo := by
    obtain ⟨node, out, hbuild, hanswers, hsorts⟩ := hp.runs ho h hc hcount (hp.wellMerged hsettled)
    exact ⟨_, yields_of_drains hbuild hanswers.drains, hsorts (hp.ordered hsettled) o hpo⟩
  merging key children hmerges child hchild := by
    obtain ⟨hfits, hkey⟩ := hp.merges hmerges
    obtain ⟨positions, -, hkp, hascends⟩ := runs_mergeKey ho h hc hfits hkey
      fun q hq => (hfits q hq).ordered hsettled
    obtain ⟨node, out, hbuild, hanswers, hsorts⟩ :=
      (hfits child hchild).runs ho h hc hcount ((hfits child hchild).wellMerged hsettled)
    rw [List.map_id] at hsorts
    have hasc := hascends (node, child.matchingFilter, out) hanswers ⟨child, hchild, hsorts⟩
    refine ⟨out, ?_, hasc.imp fun hab => ?_⟩
    · have hyields := yields_of_drains hbuild hanswers.drains
      rwa [List.map_id] at hyields
    · rwa [hkp.keyAt, hkp.keyAt] at hab

include hsettled in
/-- A limit on a fitting plan keeps its order. -/
theorem Fits.keepsOrder_limit (ho : c.Over v t) (h : v.Serves t rows) (hc : v.catalog.Sound)
    (hcount : rows.length < UInt64.size) (hp : Fits v.catalog t p image) (count : Nat) :
    (Plan.limit p count).KeepsOrder c v t where
  sorted o hpo := by
    obtain ⟨node, out, hbuild, hanswers, hsorts⟩ := hp.runs ho h hc hcount (hp.wellMerged hsettled)
    have hlimit : c.build (.limit p count) = .ok (.limit node count) := by
      rw [ExecutionContext.build, hbuild]
      rfl
    exact ⟨_, yields_of_drains hlimit (hanswers.drains.limit count),
      (hsorts (hp.ordered hsettled) o hpo).sublist (List.take_sublist _ _)⟩
  merging _ _ hmerges := by cases hmerges

include hsettled in
/-- **So does every part of a fitting plan under a limit.** -/
theorem Fits.keepsOrder_part (ho : c.Over v t) (h : v.Serves t rows) (hc : v.catalog.Sound)
    (hcount : rows.length < UInt64.size) (hp : Fits v.catalog t p image) {limit : Option Nat}
    {part : Plan} (hpart : part.IsPartOf (p.withLimit limit)) : part.KeepsOrder c v t := by
  have hbelow : part.IsPartOf p → part.KeepsOrder c v t := fun hpart => by
    obtain ⟨image', hfits⟩ := hp.part hpart
    exact hfits.keepsOrder hsettled ho h hc hcount
  cases limit with
  | none => exact hbelow hpart
  | some count =>
    cases hpart with
    | self => exact hp.keepsOrder_limit hsettled ho h hc hcount count
    | limit _ hpart => exact hbelow hpart

end Settled

end RecordLayer.Plan
