import RecordLayer.Proofs.Cursor.Merge

/-!
# Joining children

A join knows the next record of each child. If all have the same key it gives out the first child's;
if not it drops those with the least key, which some other child has already passed. Over children
whose keys strictly ascend, it gives exactly the records of the first child whose key occurs in
every child, and it can stop as soon as one child has come to its end.

`Joining` is the invariant of a running join: each child has the stream that begins with its head,
if the head is known.
-/

namespace RecordLayer

open Reading

namespace CursorNode

/-- A record with its key. -/
def pairOf (key : List Nat) (r : Record) : List Value × Record := (r.keyAt key, r)

/-- The streams of `n` children have a key in common. -/
def isShared (n : Nat) (f : Nat → List (List Value × Record)) (k : List Value) : Bool :=
  (List.range n).all fun j => (f j).any fun p => p.1 == k

/-- The records of the first stream whose key occurs in each of the first `n` streams. -/
def joined (n : Nat) (f : Nat → List (List Value × Record)) : List Record :=
  ((f 0).filter fun p => isShared n f p.1).map (·.2)

theorem isShared_iff {n : Nat} {f : Nat → List (List Value × Record)} {k : List Value} :
    isShared n f k = true ↔ ∀ j < n, ∃ p ∈ f j, p.1 = k := by
  simp [isShared]

theorem joined_eq_nil {n : Nat} {f : Nat → List (List Value × Record)} {i : Nat} (hi : i < n)
    (h : f i = []) : joined n f = [] := by
  rw [joined, List.map_eq_nil_iff, List.filter_eq_nil_iff]
  intro p _ hshared
  obtain ⟨q, hq, -⟩ := isShared_iff.1 hshared i hi
  rw [h] at hq
  simp at hq

/-! ## Dropping the least key -/

/-- Every head is at least the least key. -/
theorem leastKey_le {heads : List (List Value × Record)} {least : List Value}
    (h : leastKey heads = some least) :
    ∀ head ∈ heads, Value.compareLists least head.1 ≠ .gt := by
  induction heads generalizing least with
  | nil => simp
  | cons head rest ih =>
    simp only [leastKey] at h
    cases hl : leastKey rest with
    | none =>
      rw [hl] at h
      obtain rfl := Option.some.inj h
      have hrest : rest = [] := by
        cases rest with
        | nil => rfl
        | cons g rest =>
          simp only [leastKey] at hl
          split at hl <;> cases hl
      simp [hrest]
    | some l =>
      rw [hl] at h
      have h := Option.some.inj h
      intro g hg
      by_cases hlt : Value.compareLists l head.1 = .lt
      · rw [if_pos (by simp [hlt])] at h
        subst h
        rcases List.mem_cons.1 hg with rfl | hg
        · simp [hlt]
        · exact ih hl g hg
      · rw [if_neg (by simpa using hlt)] at h
        subst h
        rcases List.mem_cons.1 hg with rfl | hg
        · simp
        · have hle : Value.compareLists head.1 l ≠ .gt := by
            rw [Value.compareLists_swap]
            cases hc : Value.compareLists l head.1 <;> simp_all
          exact Value.compareLists_trans hle (ih hl g hg)

/-- The streams without the heads that have a key. -/
def dropKey (heads : List (List Value × Record)) (k : List Value)
    (f : Nat → List (List Value × Record)) : Nat → List (List Value × Record) :=
  fun i => if (heads[i]?.map (·.1)) = some k then (f i).tail else f i

section Drop

variable {heads : List (List Value × Record)} {least : List Value}
  {f : Nat → List (List Value × Record)}

/-- In a strictly ascending stream, every key behind the head is larger. -/
theorem lt_of_mem_tail {stream : List (List Value × Record)}
    (h : stream.Pairwise fun a b => Value.compareLists a.1 b.1 = .lt) {head : List Value × Record}
    (hhead : stream.head? = some head) {p : List Value × Record} (hp : p ∈ stream.tail) :
    Value.compareLists head.1 p.1 = .lt := by
  cases stream with
  | nil => simp at hp
  | cons g rest =>
    obtain rfl : g = head := by simpa using hhead
    exact (List.pairwise_cons.1 h).1 p hp

/-- No key is left below the least one, and the least key itself is gone. -/
theorem ne_of_mem_dropKey (hleast : leastKey heads = some least)
    (hinc : ∀ i, (f i).Pairwise fun a b => Value.compareLists a.1 b.1 = .lt)
    (hheads : ∀ i head, heads[i]? = some head → (f i).head? = some head) {i : Nat}
    (hi : i < heads.length) {p : List Value × Record} (hp : p ∈ dropKey heads least f i) :
    p.1 ≠ least := by
  have hget : heads[i]? = some heads[i] := List.getElem?_eq_getElem hi
  have hle := leastKey_le hleast heads[i] (List.getElem_mem hi)
  have hhead := hheads i _ hget
  -- behind its first element a stream only ascends
  have htail : p ∈ (f i).tail → p.1 ≠ least := by
    intro hp heq
    have hlt := lt_of_mem_tail (hinc i) hhead hp
    rw [heq, Value.compareLists_swap] at hlt
    cases hc : Value.compareLists least heads[i].1 <;> simp_all
  unfold dropKey at hp
  split at hp
  · exact htail hp
  · rename_i hne
    cases hfi : f i with
    | nil => simp [hfi] at hp
    | cons g rest =>
      rw [hfi] at hhead hp
      obtain rfl : g = heads[i] := by simpa using hhead
      rcases List.mem_cons.1 hp with rfl | hp
      · intro heq
        exact hne (by simp [hget, heq])
      · exact htail (by simp [hfi, hp])

/-- Other keys occur as before. -/
theorem mem_dropKey_iff (hheads : ∀ i head, heads[i]? = some head → (f i).head? = some head)
    {k : List Value} (hk : k ≠ least) (i : Nat) :
    (∃ p ∈ dropKey heads least f i, p.1 = k) ↔ ∃ p ∈ f i, p.1 = k := by
  unfold dropKey
  split
  · rename_i hmap
    obtain ⟨head, hget, hkey⟩ := Option.map_eq_some_iff.1 hmap
    have hhead := hheads i head hget
    cases hfi : f i with
    | nil => simp
    | cons g rest =>
      obtain rfl : g = head := by simpa [hfi] using hhead
      simp only [List.tail_cons, List.mem_cons, exists_eq_or_imp]
      constructor
      · exact .inr
      · rintro (heq | h)
        · exact absurd (heq.symm.trans hkey) hk
        · exact h
  · exact Iff.rfl

/-- A key that is still there behind the least one is shared as before. -/
theorem isShared_dropKey (hleast : leastKey heads = some least)
    (hinc : ∀ i, (f i).Pairwise fun a b => Value.compareLists a.1 b.1 = .lt)
    (hheads : ∀ i head, heads[i]? = some head → (f i).head? = some head) {i : Nat}
    (hi : i < heads.length) {p : List Value × Record} (hp : p ∈ dropKey heads least f i) :
    isShared heads.length (dropKey heads least f) p.1 = isShared heads.length f p.1 := by
  have hne := ne_of_mem_dropKey hleast hinc hheads hi hp
  rw [Bool.eq_iff_iff, isShared_iff, isShared_iff]
  simp only [mem_dropKey_iff hheads hne]

/-- The least key is shared exactly if every head has it. -/
theorem isShared_least (hleast : leastKey heads = some least)
    (hinc : ∀ i, (f i).Pairwise fun a b => Value.compareLists a.1 b.1 = .lt)
    (hheads : ∀ i head, heads[i]? = some head → (f i).head? = some head) :
    isShared heads.length f least = heads.all (·.1 == least) := by
  rw [Bool.eq_iff_iff, isShared_iff, List.all_eq_true]
  constructor
  · -- a stream whose head is another one does not have the least key at all
    intro h head hmem
    obtain ⟨i, hi, rfl⟩ := List.getElem_of_mem hmem
    obtain ⟨p, hp, hkey⟩ := h i hi
    cases hne : decide (heads[i].1 = least) with
    | true => simpa using hne
    | false =>
      have hp' : p ∈ dropKey heads least f i := by
        rw [dropKey, if_neg (by simpa [List.getElem?_eq_getElem hi] using hne)]
        exact hp
      exact absurd hkey (ne_of_mem_dropKey hleast hinc hheads hi hp')
  · intro h j hj
    have hmem := h heads[j] (List.getElem_mem hj)
    have hhead := hheads j heads[j] (List.getElem?_eq_getElem hj)
    exact ⟨heads[j], List.mem_of_mem_head? hhead, by simpa using hmem⟩

/-- **Comparing the heads loses no record:** the first one goes out if all have the least key, and
no record with the least key is shared otherwise. -/
theorem joined_eq {first : List Value × Record} {others : List (List Value × Record)}
    (hfirst : heads = first :: others) (hleast : leastKey heads = some least)
    (hinc : ∀ i, (f i).Pairwise fun a b => Value.compareLists a.1 b.1 = .lt)
    (hheads : ∀ i head, heads[i]? = some head → (f i).head? = some head) :
    joined heads.length f =
      (if heads.all (·.1 == least) then [first.2] else []) ++
        joined heads.length (dropKey heads least f) := by
  have hpos : 0 < heads.length := by rw [hfirst]; exact Nat.zero_lt_succ _
  have hhead0 : (f 0).head? = some first := hheads 0 first (by rw [hfirst]; rfl)
  obtain ⟨rest, hf0⟩ : ∃ rest, f 0 = first :: rest := by
    cases hf : f 0 with
    | nil => simp [hf] at hhead0
    | cons g rest => exact ⟨rest, by rw [hf] at hhead0; simpa using hhead0⟩
  -- once the least key is dropped, what is shared of the rest is what was shared of it before
  have hfilter : (dropKey heads least f 0).filter
        (fun p => isShared heads.length (dropKey heads least f) p.1) =
      (dropKey heads least f 0).filter fun p => isShared heads.length f p.1 :=
    List.filter_congr fun p hp => isShared_dropKey hleast hinc hheads hpos hp
  have hdrop : dropKey heads least f 0 = if first.1 = least then rest else first :: rest := by
    rw [dropKey, hf0, hfirst]
    simp
  rw [joined, joined, hfilter, hdrop, hf0]
  by_cases hkey : first.1 = least
  · rw [if_pos hkey, List.filter_cons, hkey, isShared_least hleast hinc hheads]
    cases heads.all (·.1 == least) <;> simp
  · have hall : heads.all (·.1 == least) = false := by
      rw [hfirst]
      simp [hkey]
    rw [if_neg hkey, hall]
    simp

end Drop

/-! ## Steps of a join -/

/-- What a join makes of a step of the child that it asks. -/
def answered (children : List CursorNode) (key : List Nat)
    (heads : List (Option (List Value × Record))) (i : Nat) : Pull CursorNode → Pull CursorNode
  | .done => .done
  | .busy next => .busy (.join (children.set i next) key heads)
  | .emit r next => .busy (.join (children.set i next) key (heads.set i (some (r.keyAt key, r))))

theorem step_join_asked {v : StoreView} {children : List CursorNode} {key : List Nat}
    {heads : List (Option (List Value × Record))} {i : Nat}
    (hi : heads.findIdx? (·.isNone) = some i) {child : CursorNode}
    (hchild : children[i]? = some child) :
    step v (.join children key heads) =
      child.step v >>= fun p => pure (answered children key heads i p) := by
  rw [step, hi]
  dsimp only
  rw [stepAt_eq hchild, bind_assoc]
  refine congrArg _ (funext fun p => ?_)
  rw [pure_bind]
  cases p <;> rfl

/-- The heads that a join keeps if it lets go of those with a key. -/
def keptHeads (known : List (List Value × Record)) (least : List Value) :
    List (Option (List Value × Record)) :=
  known.map fun head => if head.1 = least then none else some head

theorem keptHeads_of_all {known : List (List Value × Record)} {least : List Value}
    (h : known.all (·.1 == least) = true) : keptHeads known least = known.map fun _ => none := by
  refine List.map_congr_left fun head hmem => if_pos ?_
  simpa using List.all_eq_true.1 h head hmem

theorem exists_leastKey (first : List Value × Record) (others : List (List Value × Record)) :
    ∃ least, leastKey (first :: others) = some least := by
  simp only [leastKey]
  split <;> exact ⟨_, rfl⟩

/-- A join that knows every head lets go of those with the least key, and gives out the first record
if that is all of them. -/
theorem step_join_known (v : StoreView) (children : List CursorNode) (key : List Nat)
    {first : List Value × Record} {others : List (List Value × Record)} {least : List Value}
    (hleast : leastKey (first :: others) = some least) :
    step v (.join children key ((first :: others).map some)) =
      pure (if (first :: others).all (·.1 == least) then
          .emit first.2 (.join children key (keptHeads (first :: others) least))
        else .busy (.join children key (keptHeads (first :: others) least))) := by
  have hnone : ∀ known : List (List Value × Record),
      (known.map some).findIdx? (·.isNone) = none := by simp
  rw [step, hnone]
  dsimp only
  rw [List.filterMap_map, Function.id_comp, List.filterMap_some]
  simp only [joinHeads, hleast]
  cases hall : (first :: others).all (·.1 == least) with
  | true =>
    rw [keptHeads_of_all hall]
    rfl
  | false => rfl

/-! ## Running joins -/

/-- The state of a running join: the children and their heads, with the stream that each child still
has. -/
structure Joining (v : StoreView) (children : List CursorNode) (key : List Nat)
    (heads : List (Option (List Value × Record))) (f : Nat → List (List Value × Record)) :
    Prop where
  length : heads.length = children.length
  child : ∀ i < children.length, ∃ node rest, children[i]? = some node ∧ Drains v node rest ∧
    f i = ((heads[i]?).getD none).toList ++ rest.map (pairOf key)
  increasing : ∀ i, (f i).Pairwise fun a b => Value.compareLists a.1 b.1 = .lt

namespace Joining

variable {v : StoreView} {children : List CursorNode} {key : List Nat}
  {heads : List (Option (List Value × Record))} {f : Nat → List (List Value × Record)}

/-- A child whose head is not known has gone on. -/
theorem advance (h : Joining v children key heads f) {i : Nat} (hi : heads[i]? = some none)
    {next : CursorNode} {rest : List Record} (hnext : Drains v next rest)
    {head : Option (List Value × Record)} (hf : f i = head.toList ++ rest.map (pairOf key)) :
    Joining v (children.set i next) key (heads.set i head) f where
  length := by simpa using h.length
  child j hj := by
    rw [List.length_set] at hj
    by_cases hji : j = i
    · subst hji
      have hlt : j < heads.length := (List.getElem?_eq_some_iff.1 hi).1
      exact ⟨next, rest, by simp [hj], hnext, by simpa [hlt] using hf⟩
    · rw [List.getElem?_set_ne (Ne.symm hji), List.getElem?_set_ne (Ne.symm hji)]
      exact h.child j hj
  increasing := h.increasing

/-- The heads with the least key are let go of. -/
theorem drop {known : List (List Value × Record)}
    (h : Joining v children key (known.map some) f) (least : List Value) :
    Joining v children key (keptHeads known least) (dropKey known least f) where
  length := by simpa [keptHeads] using h.length
  child i hi := by
    obtain ⟨node, rest, hnode, hdrains, hf⟩ := h.child i hi
    refine ⟨node, rest, hnode, hdrains, ?_⟩
    have hlt : i < known.length := by
      have := h.length
      rw [List.length_map] at this
      omega
    simp only [keptHeads, List.getElem?_map, List.getElem?_eq_getElem hlt, Option.map_some,
      Option.getD_some, Option.toList_some] at hf ⊢
    rw [dropKey, List.getElem?_eq_getElem hlt, Option.map_some, hf]
    by_cases hkey : known[i].1 = least
    · simp [hkey]
    · simp [hkey]
  increasing i := by
    unfold dropKey
    split
    · exact (h.increasing i).sublist (List.tail_sublist _)
    · exact h.increasing i

theorem exists_map_some {α : Type} : ∀ {l : List (Option α)}, (∀ x ∈ l, x.isNone = false) →
    ∃ known : List α, l = known.map some
  | [], _ => ⟨[], rfl⟩
  | none :: _, h => by simp at h
  | some a :: l, h =>
    let ⟨known, hknown⟩ := exists_map_some fun x hx => h x (List.mem_cons_of_mem _ hx)
    ⟨a :: known, by rw [hknown]; rfl⟩

/-- The next step of a join asks a child, or it knows every head. -/
theorem asked_or_known (hlen : heads.length = children.length) :
    (∃ i child, heads.findIdx? (·.isNone) = some i ∧ children[i]? = some child) ∨
      ∃ known : List (List Value × Record), heads = known.map some := by
  cases hidx : heads.findIdx? (·.isNone) with
  | none => exact .inr (exists_map_some (List.findIdx?_eq_none_iff.1 hidx))
  | some i =>
    obtain ⟨hlt, -⟩ := List.findIdx?_eq_some_iff_getElem.1 hidx
    exact .inl ⟨i, children[i], rfl, List.getElem?_eq_getElem (hlen ▸ hlt)⟩

/-- What a step of a running join comes to: it ends where nothing is to come, or leads to a running
join with what is still to come. -/
def Goes (v : StoreView) (key : List Nat) (n : Nat) (node : CursorNode) (out : List Record) :
    Prop :=
  (node.step v).Gives .done ∧ out = [] ∨
    ∃ children heads f, children.length = n ∧ Joining v children key heads f ∧
      ((node.step v).Gives (.busy (.join children key heads)) ∧ out = joined n f ∨
        ∃ r, (node.step v).Gives (.emit r (.join children key heads)) ∧ out = r :: joined n f)

/-- Asking a child changes nothing about what is to come; if the child has ended, nothing is. -/
theorem goes_of_asked (h : Joining v children key heads f) {i : Nat} {child : CursorNode}
    (hidx : heads.findIdx? (·.isNone) = some i) (hchild : children[i]? = some child) :
    Goes v key children.length (.join children key heads) (joined children.length f) := by
  obtain ⟨hlt, hnone, -⟩ := List.findIdx?_eq_some_iff_getElem.1 hidx
  have hi : heads[i]? = some none := by
    rw [List.getElem?_eq_getElem hlt]
    simpa using hnone
  have hlt' : i < children.length := h.length ▸ hlt
  obtain ⟨node, rest, hnode, hdrains, hf⟩ := h.child i hlt'
  obtain rfl : child = node := Option.some.inj (hchild.symm.trans hnode)
  rw [hi, Option.getD_some, Option.toList_none, List.nil_append] at hf
  have hgives : ∀ {p : Pull CursorNode}, (child.step v).Gives p →
      (step v (.join children key heads)).Gives (answered children key heads i p) := by
    intro p hp
    rw [step_join_asked hidx hchild]
    exact gives_bind hp (gives_pure _)
  cases hdrains with
  | done hp => exact .inl ⟨hgives hp, joined_eq_nil hlt' (by simpa using hf)⟩
  | @busy _ next _ hp hnext =>
    have hset : heads.set i none = heads := by
      refine List.ext_getElem? fun j => ?_
      by_cases hji : i = j
      · subst hji
        rw [List.getElem?_set_self hlt, hi]
      · rw [List.getElem?_set_ne hji]
    have hjoining : Joining v (children.set i next) key (heads.set i none) f :=
      h.advance hi hnext (by simpa using hf)
    rw [hset] at hjoining
    exact .inr ⟨_, _, f, List.length_set, hjoining, .inl ⟨hgives hp, rfl⟩⟩
  | @emit _ next r rest hp hnext =>
    have hjoining : Joining v (children.set i next) key
        (heads.set i (some (r.keyAt key, r))) f := h.advance hi hnext (by simpa [pairOf] using hf)
    exact .inr ⟨_, _, f, List.length_set, hjoining, .inl ⟨hgives hp, rfl⟩⟩

/-- Comparing the heads gives out the next record that is to come, if all of them have one key. -/
theorem goes_of_known {known : List (List Value × Record)}
    (h : Joining v children key (known.map some) f) (hne : children ≠ []) :
    Goes v key children.length (.join children key (known.map some))
      (joined children.length f) := by
  have hlen : known.length = children.length := by simpa using h.length
  have hheads : ∀ i head, known[i]? = some head → (f i).head? = some head := by
    intro i head hi
    have hlt := (List.getElem?_eq_some_iff.1 hi).1
    obtain ⟨node, rest, -, -, hf⟩ := h.child i (hlen ▸ hlt)
    simp [hf, hi]
  cases hk : known with
  | nil => exact absurd (List.eq_nil_of_length_eq_zero (by rw [← hlen, hk]; rfl)) hne
  | cons first others =>
    obtain ⟨least, hleast⟩ := exists_leastKey first others
    have hjoined := joined_eq hk (hk ▸ hleast) h.increasing hheads
    have hdropped := h.drop least
    rw [hk] at hdropped hjoined hlen
    rw [hlen] at hjoined
    -- `joined_eq` says what letting go of the least key takes away from what is to come
    refine .inr ⟨children, _, _, rfl, hdropped, ?_⟩
    rw [step_join_known v children key hleast, hjoined]
    cases (first :: others).all (·.1 == least) with
    | true => exact .inr ⟨first.2, gives_pure _, rfl⟩
    | false => exact .inl ⟨gives_pure _, rfl⟩

/-- **A running join gives the records of the first stream whose key every stream has.** -/
theorem drains (h : Joining v children key heads f) (hne : children ≠ []) :
    Drains v (.join children key heads) (joined children.length f) := by
  generalize hnode : CursorNode.join children key heads = node
  induction node using step_induction v generalizing children heads f with
  | step node ih =>
    subst hnode
    have hgoes :
        Goes v key children.length (.join children key heads) (joined children.length f) := by
      rcases asked_or_known h.length with ⟨i, child, hidx, hchild⟩ | ⟨known, rfl⟩
      · exact h.goes_of_asked hidx hchild
      · exact h.goes_of_known hne
    -- one step of the join, and the rest by the induction over what it leaves
    rcases hgoes with ⟨hdone, hout⟩ | ⟨children', heads', f', hlen, hnext, hstep⟩
    · rw [hout]
      exact .done hdone
    · have hne' : children' ≠ [] := by
        rintro rfl
        exact hne (List.eq_nil_of_length_eq_zero hlen.symm)
      rw [← hlen] at hstep ⊢
      rcases hstep with ⟨hbusy, hout⟩ | ⟨r, hemit, hout⟩
      · rw [hout]
        exact .busy hbusy (ih _ _ hbusy rfl hnext hne' rfl)
      · rw [hout]
        exact .emit hemit (ih _ _ hemit rfl hnext hne' rfl)

end Joining

/-- The records of the first list whose key occurs in every list. -/
def shared (key : List Nat) : List (List Record) → List Record
  | [] => []
  | first :: others =>
    first.filter fun r =>
      (first :: others).all fun out => out.any fun s => s.keyAt key == r.keyAt key

theorem mem_shared {key : List Nat} {first : List Record} {others : List (List Record)}
    {r : Record} :
    r ∈ shared key (first :: others) ↔
      r ∈ first ∧ ∀ out ∈ first :: others, ∃ s ∈ out, s.keyAt key = r.keyAt key := by
  simp [shared]

theorem joined_eq_shared (key : List Nat) (outs : List (List Record)) :
    joined outs.length (fun i => (outs[i]?.getD []).map (pairOf key)) = shared key outs := by
  cases outs with
  | nil => rfl
  | cons first others =>
    rw [joined, shared, List.getElem?_cons_zero, Option.getD_some, List.filter_map, List.map_map]
    rw [show ((·.2) ∘ pairOf key : Record → Record) = id from rfl, List.map_id]
    refine List.filter_congr fun r _ => ?_
    rw [Bool.eq_iff_iff, Function.comp_apply, isShared_iff, List.all_eq_true]
    simp only [List.any_eq_true, beq_iff_eq]
    constructor
    · intro h out hout
      obtain ⟨i, hi, rfl⟩ := List.getElem_of_mem hout
      obtain ⟨p, hp, hpk⟩ := h i hi
      rw [List.getElem?_eq_getElem hi] at hp
      obtain ⟨s, hs, rfl⟩ := List.mem_map.1 hp
      exact ⟨s, hs, hpk⟩
    · intro h i hi
      obtain ⟨s, hs, hsk⟩ := h _ (List.getElem_mem hi)
      refine ⟨pairOf key s, ?_, hsk⟩
      rw [List.getElem?_eq_getElem hi]
      exact List.mem_map_of_mem hs

/-- A join of these children that has not started. -/
abbrev startJoin (children : List CursorNode) (key : List Nat) : CursorNode :=
  .join children key (children.map fun _ => none)

/-- **A join that has not started gives the records of its first child whose key occurs in every
child,** if the keys of each child strictly ascend. -/
theorem drains_join {v : StoreView} {children : List (CursorNode × List Record)}
    (h : ∀ p ∈ children, Drains v p.1 p.2) (hne : children ≠ []) {key : List Nat}
    (hinc : ∀ p ∈ children, p.2.Pairwise fun a b =>
      Value.compareLists (a.keyAt key) (b.keyAt key) = .lt) :
    Drains v (startJoin (children.map (·.1)) key) (shared key (children.map (·.2))) := by
  have hstart : Joining v (children.map (·.1)) key ((children.map (·.1)).map fun _ => none)
      fun i => ((children.map (·.2))[i]?.getD []).map (pairOf key) := by
    refine ⟨by simp, fun i hi => ?_, fun i => ?_⟩
    · have hlt : i < children.length := by simpa using hi
      refine ⟨children[i].1, children[i].2, by simp [hlt], h _ (List.getElem_mem hlt), ?_⟩
      simp [hlt]
    · refine List.pairwise_map.2 ?_
      rw [List.getElem?_map]
      by_cases hlt : i < children.length
      · rw [List.getElem?_eq_getElem hlt]
        exact hinc _ (List.getElem_mem hlt)
      · rw [List.getElem?_eq_none (Nat.not_lt.1 hlt)]
        exact .nil
  have hgo := hstart.drains (by simpa using hne)
  rwa [← joined_eq_shared, List.length_map, ← List.length_map (f := (·.1))]

end CursorNode

end RecordLayer
