import Otari.Settings.SecretFields
import Otari.Support.Outcome

/-!
# Settings — SecretsRestored — what masking hides, and what restoring gives back

Masking and restoring walk an object in step, to the same depth.  **Objects that differ only under
names that look like a credential's are masked alike** (`redactNode_eq_of_alike`), and **restoring a
masked object gives the object back** (`restoreNode_redactNode`).

A submitted list entry is paired with a stored one by Python's `==`, which takes `True` for `1`.  Where
that makes no difference (`Exact`), every value of what is restored is the submitted one or the one
stored under the same path of names (`RestoredFrom`), only masks are replaced (`KeptButMasks`), and
restoring raises where a changed list has an entry with a mask that fits no stored entry, or several
that differ (`Unresolved`).
-/

namespace Otari.SecretFields
open List hiding getElem_ofFn
open PyValue (get)

/-! ### What masking hides -/

/-- Values that differ only under names that look like a credential's. -/
inductive AlikeButSecrets : PyValue → PyValue → Prop where
  | scalar (a : Scalar) : AlikeButSecrets (.scalar a) (.scalar a)
  | arr {n : ℕ} {l l' : Fin n → PyValue} (h : ∀ i, AlikeButSecrets (l i) (l' i)) :
      AlikeButSecrets (.arr n l) (.arr n l')
  | obj {keys : Finset String} {vals vals' : {k // k ∈ keys} → PyValue}
      (h : ∀ k : {k // k ∈ keys}, looksSecret k = false → AlikeButSecrets (vals k) (vals' k)) :
      AlikeButSecrets (.obj keys vals) (.obj keys vals')

variable {v : PyValue}

variable {v' : PyValue}

/-- **What differs only in secrets is masked alike.** -/
theorem redactNode_eq_of_alike (h : AlikeButSecrets v v') (depth : ℕ) :
    redactNode v depth = redactNode v' depth := by
  induction h generalizing depth with
  | scalar a => rfl
  | arr h ih =>
    rw [redactNode, redactNode]
    split
    · rfl
    · exact congrArg (PyValue.arr _) (funext fun i => ih i (depth + 1))
  | obj h ih =>
    rw [redactNode, redactNode]
    split
    · rfl
    · refine congrArg (PyValue.obj _) (funext fun k => ?_)
      by_cases hk : looksSecret k = true
      · rw [if_pos hk, if_pos hk]
      · rw [if_neg hk, if_neg hk]
        exact ih k (by simpa using hk) (depth + 1)

/-! ### Restoring what was masked -/

theorem gather_ok {ι : Type} [Fintype ι] {f : ι → Except UnresolvedRedactionError PyValue}
    {g : ι → PyValue} : gather f = .ok g ↔ ∀ i, f i = .ok (g i) := by
  rw [gather]
  constructor
  · intro h
    split at h
    · rename_i hall
      cases h
      intro i
      cases hf : f i with
      | error e =>
        have hi := hall i
        rw [hf] at hi
        cases hi
      | ok v =>
        dsimp only
        rw [hf]
        rfl
    · cases h
  · intro h
    rw [if_pos fun i => by rw [h i]; rfl]
    exact congrArg Except.ok (funext fun i => by rw [h i]; rfl)

theorem gather_error {ι : Type} [Fintype ι] {f : ι → Except UnresolvedRedactionError PyValue}
    {e : UnresolvedRedactionError} : gather f = .error e ↔ ∃ i, f i = .error e := by
  cases e
  rw [gather]
  constructor
  · intro h
    split at h
    · cases h
    · rename_i hall
      obtain ⟨i, hi⟩ := not_forall.mp hall
      refine ⟨i, ?_⟩
      cases hf : f i with
      | error e =>
        cases e
        rfl
      | ok v =>
        rw [hf] at hi
        exact (hi rfl).elim
  · rintro ⟨i, hi⟩
    rw [if_neg]
    intro hall
    have hok := hall i
    rw [hi] at hok
    cases hok

theorem redactNode_of_deep {depth : ℕ} (h : maxNestingDepth ≤ depth) (v : PyValue) :
    redactNode v depth = redactedValue := by
  cases v with
  | scalar a => rw [redactNode, if_pos h]
  | arr n l => rw [redactNode, if_pos h]
  | obj keys vals => rw [redactNode, if_pos h]

theorem pyEq_redactedValue : v.pyEq redactedValue = true ↔ v = redactedValue :=
  PyValue.pyEq_str

/-- **Restoring what was masked gives it back.** -/
theorem restoreNode_redactNode (s : PyValue) {depth : ℕ} (hdepth : depth < maxNestingDepth) :
    restoreNode (redactNode s depth) s depth = .ok s := by
  have hnot : ¬ maxNestingDepth ≤ depth := Nat.not_le_of_lt hdepth
  induction s generalizing depth with
  | scalar a =>
    rw [redactNode, if_neg hnot]
    rfl
  | arr n l ih =>
    have hmasked : PyValue.ofList ((PyValue.arr n l).items.map fun item => redactNode item (depth + 1)) =
        .arr n fun i => redactNode (l i) (depth + 1) := by
      rw [PyValue.items_arr, map_ofFn, PyValue.ofList_items]
      rfl
    rw [redactNode, if_neg hnot, restoreNode, if_neg hnot, restoreList, hmasked, PyValue.pyEq_self, if_pos rfl, PyValue.items_arr, PyValue.ofList_items]
  | obj keys vals ih =>
    rw [redactNode, if_neg hnot, restoreNode, if_neg hnot, gather_ok.mpr]
    · rfl
    · intro k
      rw [PyValue.get_obj]
      rw [orStored]
      by_cases hk : looksSecret k = true
      · rw [if_pos hk, PyValue.pyEq_self, if_pos rfl]
      · rw [if_neg hk]
        split
        · rfl
        · rename_i hne
          rw [pyEq_redactedValue] at hne
          have hdeep : ¬ maxNestingDepth ≤ depth + 1 := fun h => hne (redactNode_of_deep h _)
          exact ih k (Nat.lt_of_not_le hdeep) hdeep

/-! ### What restoring keeps -/

/-- Only masks were replaced. -/
inductive KeptButMasks : PyValue → PyValue → Prop where
  | mask (v : PyValue) : KeptButMasks redactedValue v
  | scalar (a : Scalar) : KeptButMasks (.scalar a) (.scalar a)
  | arr {n : ℕ} {l l' : Fin n → PyValue} (h : ∀ i, KeptButMasks (l i) (l' i)) :
      KeptButMasks (.arr n l) (.arr n l')
  | obj {keys : Finset String} {vals vals' : {k // k ∈ keys} → PyValue}
      (h : ∀ k, KeptButMasks (vals k) (vals' k)) : KeptButMasks (.obj keys vals) (.obj keys vals')

theorem KeptButMasks.refl (v : PyValue) : KeptButMasks v v := by
  induction v with
  | scalar a => exact .scalar a
  | arr n l ih => exact .arr ih
  | obj keys vals ih => exact .obj ih

theorem keptButMasks_redactNode (v : PyValue) (depth : ℕ) : KeptButMasks (redactNode v depth) v := by
  by_cases hdepth : maxNestingDepth ≤ depth
  · rw [redactNode_of_deep hdepth]
    exact .mask v
  · induction v generalizing depth with
    | scalar a =>
      rw [redactNode, if_neg hdepth]
      exact .scalar a
    | arr n l ih =>
      rw [redactNode, if_neg hdepth]
      refine .arr fun i => ?_
      by_cases hdeep : maxNestingDepth ≤ depth + 1
      · rw [redactNode_of_deep hdeep]
        exact .mask _
      · exact ih i (depth + 1) hdeep
    | obj keys vals ih =>
      rw [redactNode, if_neg hdepth]
      refine .obj fun k => ?_
      by_cases hk : looksSecret k = true
      · rw [if_pos hk]
        exact .mask _
      · rw [if_neg hk]
        by_cases hdeep : maxNestingDepth ≤ depth + 1
        · rw [redactNode_of_deep hdeep]
          exact .mask _
        · exact ih k (depth + 1) hdeep

/-- What a value is restored to: itself, what is stored under the same name where it is the mask, and
in a list a stored entry of which it is the masked form. -/
inductive RestoredFrom : Option PyValue → PyValue → ℕ → PyValue → Prop where
  | kept (stored : Option PyValue) (v : PyValue) (depth : ℕ) : RestoredFrom stored v depth v
  | masked (v : PyValue) (depth : ℕ) : RestoredFrom (some v) redactedValue depth v
  | arr {stored : Option PyValue} {depth n : ℕ} {l l' : Fin n → PyValue}
      (h : ∀ i, l' i = l i ∨
        ∃ s, stored = some s ∧ l' i ∈ s.items ∧ redactNode (l' i) (depth + 1) = l i) :
      RestoredFrom stored (.arr n l) depth (.arr n l')
  | obj {stored : Option PyValue} {depth : ℕ} {keys : Finset String}
      {vals vals' : {k // k ∈ keys} → PyValue}
      (h : ∀ k : {k // k ∈ keys},
        RestoredFrom (stored.bind (get · k)) (vals k) (depth + 1) (vals' k)) :
      RestoredFrom stored (.obj keys vals) depth (.obj keys vals')

/-- A value that holds no other, and the names on the way to it; a list has no names. -/
inductive Leaf : PyValue → List (Option String) → Scalar → Prop where
  | scalar (a : Scalar) : Leaf (.scalar a) [] a
  | item {n : ℕ} {l : Fin n → PyValue} {i : Fin n} {path : List (Option String)} {a : Scalar}
      (h : Leaf (l i) path a) : Leaf (.arr n l) (none :: path) a
  | entry {keys : Finset String} {vals : {k // k ∈ keys} → PyValue} {k : {k // k ∈ keys}}
      {path : List (Option String)} {a : Scalar} (h : Leaf (vals k) path a) :
      Leaf (.obj keys vals) (some k.1 :: path) a

variable {path : List (Option String)}

theorem leaf_of_get {s : PyValue} {key : String} (hget : get s key = some v)
    {a : Scalar} (h : Leaf v path a) : Leaf s (some key :: path) a := by
  cases s with
  | scalar b => cases hget
  | arr n l => cases hget
  | obj keys vals =>
    rw [PyValue.get] at hget
    split at hget
    · rename_i hkey
      cases hget
      exact .entry h
    · cases hget

/-- **What is restored stands under a path of names where it was submitted, or where it is stored.** -/
theorem leaf_of_restoredFrom {stored : Option PyValue} {depth : ℕ}
    (h : RestoredFrom stored v depth v') {a : Scalar}
    (hleaf : Leaf v' path a) : Leaf v path a ∨ ∃ s, stored = some s ∧ Leaf s path a := by
  induction h generalizing path with
  | kept => exact .inl hleaf
  | masked v => exact .inr ⟨v, rfl, hleaf⟩
  | arr h =>
    cases hleaf with
    | @item _ _ i path a hleaf =>
      rcases h i with hi | ⟨s, hs, hmem, -⟩
      · rw [hi] at hleaf
        exact .inl (.item hleaf)
      · refine .inr ⟨s, hs, ?_⟩
        cases s with
        | scalar a => cases hmem
        | obj keys vals => cases hmem
        | arr n l =>
          obtain ⟨j, hj⟩ := mem_ofFn.mp hmem
          rw [← hj] at hleaf
          exact .item hleaf
  | obj h ih =>
    cases hleaf with
    | @entry _ _ k path a hleaf =>
      rcases ih k hleaf with hown | ⟨s', hs', hleaf'⟩
      · exact .inl (.entry hown)
      · obtain ⟨s, hs, hget⟩ := Option.bind_eq_some_iff.mp hs'
        exact .inr ⟨s, hs, leaf_of_get hget hleaf'⟩

/-! ### Where Python's equality is equality -/

/-- The entries of a submitted list and of a stored one that are equal in Python are the same, as far
as restoring compares them. -/
structure ExactItems (stored submitted : List PyValue) (depth : ℕ) : Prop where
  submitted : ∀ entry ∈ stored, ∀ item ∈ submitted,
    (redactNode entry (depth + 1)).pyEq item = true → redactNode entry (depth + 1) = item
  stored : ∀ entry ∈ stored, ∀ entry' ∈ stored,
    redactNode entry (depth + 1) = redactNode entry' (depth + 1) →
      entry'.pyEq entry = true → entry' = entry

/-- So are the entries of all lists that restoring compares, and of those past `maxNestingDepth`, which
it leaves. -/
def Exact : PyValue → PyValue → ℕ → Prop
  | .scalar _, _, _ => True
  | .arr _ items, stored, depth => ExactItems stored.items (List.ofFn items) depth
  | .obj keys vals, stored, depth =>
    ∀ k : {k // k ∈ keys}, Exact (vals k) ((get stored k).getD .none) (depth + 1)

theorem worded_of_mem {s entry : PyValue} (hs : s.worded = true) (h : entry ∈ s.items) :
    entry.worded = true := by
  cases s with
  | arr n l =>
    obtain ⟨i, rfl⟩ := (mem_ofFn' _ _).mp h
    exact of_decide_eq_true hs i
  | scalar | obj => cases h

/-- What holds no number is exact. -/
theorem exact_of_worded {e s : PyValue} (he : e.worded = true) (hs : s.worded = true) (depth : ℕ) :
    Exact e s depth := by
  induction e generalizing s depth with
  | scalar a => trivial
  | arr n l =>
    exact ⟨fun _ _ _ hitem => PyValue.eq_of_pyEq (worded_of_mem he hitem),
      fun _ hentry _ _ _ => PyValue.eq_of_pyEq (worded_of_mem hs hentry)⟩
  | obj keys vals ih =>
    refine fun k => ih k (of_decide_eq_true he k) ?_ (depth + 1)
    cases s with
    | obj keys' vals' =>
      rw [PyValue.get]
      split
      · exact of_decide_eq_true hs _
      · rfl
    | scalar | arr => rfl

/-! ### A list -/

variable {stored : List PyValue}

theorem restoreItem_ok {depth : ℕ} {item : PyValue} (h : restoreItem stored depth item = .ok v) :
    v = item ∨ v ∈ stored ∧ (redactNode v (depth + 1)).pyEq item = true := by
  have hunmatched : (if carriesMask item (depth + 1) then .error .unresolved else .ok item) =
      (Except.ok v : Except UnresolvedRedactionError PyValue) → v = item := by
    intro h
    split at h
    · cases h
    · cases h
      rfl
  rw [restoreItem] at h
  split at h
  · exact .inl (hunmatched h)
  · rename_i first rest hfilter
    split at h
    · cases h
      have hmem : v ∈ stored.filter fun entry => (redactNode entry (depth + 1)).pyEq item := by
        rw [hfilter]
        exact mem_cons_self
      exact .inr (mem_filter.mp hmem)
    · exact .inl (hunmatched h)

/-- What is restored of a list: entry by entry the submitted one, or a stored one that it is the masked
form of. -/
theorem restoreList_ok {n : ℕ} {l : Fin n → PyValue} {depth : ℕ} {r : PyValue}
    (h : restoreList (.arr n l) stored depth = .ok r) : ∃ l' : Fin n → PyValue, r = .arr n l' ∧
      ∀ i, l' i = l i ∨ l' i ∈ stored ∧ (redactNode (l' i) (depth + 1)).pyEq (l i) = true := by
  rw [restoreList] at h
  split at h
  · rename_i hwhole
    cases h
    obtain ⟨hn, heq⟩ := PyValue.pyEq_arr hwhole
    subst hn
    refine ⟨fun i => stored.get (Fin.cast (length_map _) i),
      PyValue.arr_congr (length_map _).symm fun i => rfl, fun i => .inr ⟨get_mem .., ?_⟩⟩
    have hi := heq i
    rw [get_eq_getElem, getElem_map] at hi
    exact hi
  · cases hmap : (PyValue.arr n l).items.mapM (restoreItem stored depth) with
    | error e =>
      rw [hmap] at h
      cases h
    | ok outs =>
      rw [hmap] at h
      cases h
      have hall := forall₂_of_mapM hmap
      have hlength : n = outs.length := by
        rw [← hall.length_eq, PyValue.items_arr, length_ofFn]
      subst hlength
      refine ⟨outs.get, rfl, fun i => ?_⟩
      have hi := forall₂_iff_get.mp hall
      have hitem := hi.2 i.1 (by simp) i.2
      simp only [PyValue.items_arr, get_eq_getElem, List.getElem_ofFn] at hitem
      exact restoreItem_ok hitem

/-! ### The whole object -/

/-- **Each value of what is restored is the submitted one, or stored where the mask was submitted.** -/
theorem restoredFrom_of_ok {r : PyValue} {stored : Option PyValue} {depth : ℕ}
    (hexact : Exact v (stored.getD .none) depth)
    (h : restoreNode v (stored.getD .none) depth = .ok r) :
    RestoredFrom stored v depth r ∧ KeptButMasks v r := by
  induction v generalizing stored depth r with
  | scalar a =>
    cases h
    exact ⟨.kept .., .refl _⟩
  | arr n l =>
    rw [restoreNode] at h
    split at h
    · cases h
      exact ⟨.kept .., .refl _⟩
    · obtain ⟨l', rfl, hl'⟩ := restoreList_ok h
      have hitem (i : Fin n) : l' i = l i ∨ l' i ∈ (stored.getD .none).items ∧
          redactNode (l' i) (depth + 1) = l i := by
        refine (hl' i).imp_right fun ⟨hmem, heq⟩ => ⟨hmem, ?_⟩
        exact hexact.submitted _ hmem _ (mem_ofFn.mpr ⟨i, rfl⟩) heq
      refine ⟨.arr fun i => ?_, .arr fun i => ?_⟩
      · rcases hitem i with hi | ⟨hmem, hi⟩
        · exact .inl hi
        · cases stored with
          | none => cases hmem
          | some s => exact .inr ⟨s, rfl, hmem, hi⟩
      · rcases hitem i with hi | ⟨-, hi⟩
        · rw [hi]
          exact .refl _
        · rw [← hi]
          exact keptButMasks_redactNode _ _
  | obj keys vals ih =>
    rw [restoreNode] at h
    split at h
    · cases h
      exact ⟨.kept .., .refl _⟩
    · obtain ⟨vals', hgather, rfl⟩ := map_eq_ok.mp h
      have hget (k : {k // k ∈ keys}) : get (stored.getD .none) k = stored.bind (get · k) := by
        cases stored <;> rfl
      have hentry (k : {k // k ∈ keys}) :
          RestoredFrom (stored.bind (get · k)) (vals k) (depth + 1) (vals' k) ∧
            KeptButMasks (vals k) (vals' k) := by
        have hk := gather_ok.mp hgather k
        have hexactk := hexact k
        rw [hget k] at hk hexactk
        unfold orStored at hk
        split at hk
        · rename_i value hstored
          split at hk
          · rename_i hmask
            obtain rfl : value = vals' k := Except.ok.inj hk
            rw [pyEq_redactedValue.mp hmask, hstored]
            exact ⟨.masked .., .mask _⟩
          · exact ih k hexactk hk
        · exact ih k hexactk hk
      exact ⟨.obj fun k => (hentry k).1, .obj fun k => (hentry k).2⟩

/-! ### Where restoring raises -/

/-- A list that was changed has an entry with a mask that is the masked form of no stored entry, or of
several that differ. -/
inductive Unresolved : Option PyValue → PyValue → ℕ → Prop where
  | arr {stored : Option PyValue} {depth n : ℕ} {l : Fin n → PyValue} {i : Fin n}
      (hdepth : depth < maxNestingDepth)
      (hchanged : (stored.getD .none).items.map (fun entry => redactNode entry (depth + 1)) ≠
        List.ofFn l)
      (hmask : carriesMask (l i) (depth + 1) = true)
      (h : (∀ entry ∈ (stored.getD .none).items, redactNode entry (depth + 1) ≠ l i) ∨
        ∃ entry ∈ (stored.getD .none).items, ∃ entry' ∈ (stored.getD .none).items,
          redactNode entry (depth + 1) = l i ∧ redactNode entry' (depth + 1) = l i ∧
            entry ≠ entry') :
      Unresolved stored (.arr n l) depth
  | obj {stored : Option PyValue} {depth : ℕ} {keys : Finset String}
      {vals : {k // k ∈ keys} → PyValue} {k : {k // k ∈ keys}} (hdepth : depth < maxNestingDepth)
      (h : Unresolved (stored.bind (get · k)) (vals k) (depth + 1)) :
      Unresolved stored (.obj keys vals) depth

theorem raises_iff {α : Type} {x : Except UnresolvedRedactionError α} :
    x = .error .unresolved ↔ ¬ ∃ a, x = .ok a := by
  cases x with
  | error e =>
    cases e
    simp
  | ok a => simp

theorem restoreItem_error {depth : ℕ} {item : PyValue} {l : List PyValue}
    (hexact : ExactItems stored l depth) (hitem : item ∈ l) :
    restoreItem stored depth item = .error .unresolved ↔ carriesMask item (depth + 1) = true ∧
        ((∀ entry ∈ stored, redactNode entry (depth + 1) ≠ item) ∨
          ∃ entry ∈ stored, ∃ entry' ∈ stored, redactNode entry (depth + 1) = item ∧
            redactNode entry' (depth + 1) = item ∧ entry ≠ entry') := by
  have hunmatched : (if carriesMask item (depth + 1) then .error .unresolved else .ok item) =
      (Except.error .unresolved : Except UnresolvedRedactionError PyValue) ↔
        carriesMask item (depth + 1) = true := by
    split <;> simp_all
  have hmatch {entry : PyValue} : (entry ∈ stored.filter fun entry =>
      (redactNode entry (depth + 1)).pyEq item) ↔
        entry ∈ stored ∧ redactNode entry (depth + 1) = item := by
    rw [mem_filter]
    refine and_congr_right fun hmem => ⟨hexact.submitted entry hmem item hitem, fun h => ?_⟩
    rw [h, PyValue.pyEq_self]
  rw [restoreItem]
  split
  · rename_i hfilter
    rw [hunmatched]
    refine ⟨fun h => ⟨h, .inl fun entry hentry heq => ?_⟩, And.left⟩
    have hmem := hmatch.mpr ⟨hentry, heq⟩
    rw [hfilter] at hmem
    cases hmem
  · rename_i first rest hfilter
    rw [hfilter] at hmatch
    obtain ⟨hfirst, hfirst'⟩ := hmatch.mp mem_cons_self
    split
    · rename_i hall
      refine ⟨fun h => (nomatch h), ?_⟩
      have hsame {entry : PyValue} (hentry : entry ∈ stored)
          (heq : redactNode entry (depth + 1) = item) : entry = first := by
        have hpy := all_eq_true.mp hall entry (hmatch.mpr ⟨hentry, heq⟩)
        exact hexact.stored first hfirst entry hentry (hfirst'.trans heq.symm) hpy
      rintro ⟨-, hnone | ⟨entry, hentry, entry', hentry', heq, heq', hne⟩⟩
      · exact (hnone first hfirst hfirst').elim
      · exact (hne ((hsame hentry heq).trans (hsame hentry' heq').symm)).elim
    · rename_i hall
      rw [hunmatched]
      refine ⟨fun h => ⟨h, .inr ?_⟩, And.left⟩
      rw [all_eq_true] at hall
      push Not at hall
      obtain ⟨entry, hentry, hne⟩ := hall
      obtain ⟨hmem, heq⟩ := hmatch.mp hentry
      refine ⟨entry, hmem, first, hfirst, heq, hfirst', fun h => hne ?_⟩
      rw [h, PyValue.pyEq_self]

theorem pyEq_masked_iff {n : ℕ} {l : Fin n → PyValue} {depth : ℕ}
    (hexact : ExactItems stored (List.ofFn l) depth) :
    (PyValue.ofList (stored.map fun entry => redactNode entry (depth + 1))).pyEq (.arr n l) = true ↔
      stored.map (fun entry => redactNode entry (depth + 1)) = List.ofFn l := by
  constructor
  · intro h
    obtain ⟨hn, heq⟩ := PyValue.pyEq_arr h
    subst hn
    refine (ofFn_get _).symm.trans (congrArg List.ofFn (funext fun i => ?_))
    have hi := heq i
    rw [get_eq_getElem, getElem_map] at hi ⊢
    exact hexact.submitted _ (getElem_mem _) _ (mem_ofFn.mpr ⟨i, rfl⟩) hi
  · intro h
    rw [h, PyValue.ofList_items, PyValue.pyEq_self]

theorem restoreList_error {n : ℕ} {l : Fin n → PyValue} {depth : ℕ}
    (hexact : ExactItems stored (List.ofFn l) depth) :
    restoreList (.arr n l) stored depth = .error .unresolved ↔
      stored.map (fun entry => redactNode entry (depth + 1)) ≠ List.ofFn l ∧
        ∃ i, restoreItem stored depth (l i) = .error .unresolved := by
  rw [restoreList]
  split
  · rename_i hwhole
    rw [pyEq_masked_iff hexact] at hwhole
    simp [hwhole]
  · rename_i hwhole
    rw [pyEq_masked_iff hexact] at hwhole
    rw [map_eq_error]
    rw [raises_iff, mapM_returns, PyValue.items_arr]
    simp only [hwhole, ne_eq, not_false_eq_true, true_and, raises_iff, mem_ofFn,
      forall_exists_index, forall_apply_eq_imp_iff, not_forall]

/-- **Restoring raises where a list is unresolved, and only there.** -/
theorem restoreNode_error {stored : Option PyValue} {depth : ℕ}
    (hexact : Exact v (stored.getD .none) depth) :
    restoreNode v (stored.getD .none) depth = .error .unresolved ↔ Unresolved stored v depth := by
  -- along the submitted value; the stored one is followed to the same place
  induction v generalizing stored depth with
  | scalar a =>
    exact ⟨fun h => (nomatch h), fun h => (nomatch h)⟩
  | arr n l =>
    rw [restoreNode]
    split
    · rename_i hdeep
      refine ⟨fun h => (nomatch h), fun h => ?_⟩
      cases h with
      | arr hdepth => exact (Nat.not_le_of_lt hdepth hdeep).elim
    · rename_i hdepth
      rw [restoreList_error hexact]
      constructor
      · rintro ⟨hchanged, i, hi⟩
        obtain ⟨hmask, h⟩ := (restoreItem_error hexact (mem_ofFn.mpr ⟨i, rfl⟩)).mp hi
        exact .arr (Nat.lt_of_not_le hdepth) hchanged hmask h
      · intro h
        cases h with
        | arr _ hchanged hmask h =>
          exact ⟨hchanged, _,
            (restoreItem_error hexact (mem_ofFn.mpr ⟨_, rfl⟩)).mpr ⟨hmask, h⟩⟩
  | obj keys vals ih =>
    have hget (k : {k // k ∈ keys}) : get (stored.getD .none) k = stored.bind (get · k) := by
      cases stored <;> rfl
    have hentry (k : {k // k ∈ keys}) :
        orStored (vals k) (get (stored.getD .none) k)
            (restoreNode (vals k) ((get (stored.getD .none) k).getD .none) (depth + 1)) =
          .error .unresolved ↔ Unresolved (stored.bind (get · k)) (vals k) (depth + 1) := by
      have hexactk := hexact k
      rw [hget k] at hexactk ⊢
      have hk := ih k hexactk
      unfold orStored
      split
      · rename_i value hstored
        split
        · rename_i hmask
          refine ⟨fun h => (nomatch h), fun h => ?_⟩
          rw [pyEq_redactedValue.mp hmask] at h
          cases h
        · rw [hstored] at hk ⊢
          exact hk
      · rename_i hstored
        rw [hstored] at hk ⊢
        exact hk
    rw [restoreNode]
    split
    · rename_i hdeep
      refine ⟨fun h => (nomatch h), fun h => ?_⟩
      cases h with
      | obj hdepth => exact (Nat.not_le_of_lt hdepth hdeep).elim
    · rename_i hdepth
      rw [map_eq_error, gather_error]
      constructor
      · rintro ⟨k, hk⟩
        exact .obj (Nat.lt_of_not_le hdepth) ((hentry k).mp hk)
      · intro h
        cases h with
        | @obj _ _ _ _ k _ h => exact ⟨k, (hentry k).mpr h⟩

/-! ### Settings objects -/

theorem value_asValues (h : v.isDict = true) : (asValues v).value = v := by
  cases v with
  | scalar a => cases h
  | arr n l => cases h
  | obj keys vals => rfl

theorem isDict_of_kept (h : KeptButMasks v v') (hv : v.isDict = true) : v'.isDict = true := by
  cases h with
  | mask => cases hv
  | scalar => cases hv
  | arr => cases hv
  | obj => rfl

theorem isDict_redactNode (s : Values) : (redactNode s.value 0).isDict = true := rfl

theorem restoreRedactedValues_eq {s : Values} (hs : s.keys ≠ ∅) (e : Values) :
    restoreRedactedValues (some e) (some s) =
      (restoreNode e.value s.value 0).map fun restored => some (asValues restored) := by
  rw [restoreRedactedValues, Option.filter_some_pos (by simpa using hs)]

theorem restoreRedactedValues_of_empty {s : Values} (hs : s.keys = ∅) (e : Values) :
    restoreRedactedValues (some e) (some s) = .ok (some e) := by
  rw [restoreRedactedValues, Option.filter_some_neg (by simpa using hs)]

/-- **Restoring a masked object gives the object back.** -/
theorem restore_redact (s : Values) :
    restoreRedactedValues (redactSecretLikeValues (some s)) (some s) = .ok (some s) := by
  by_cases hs : s.keys = ∅
  · have hsame : asValues (redactNode s.value 0) = s := by
      obtain ⟨keys, vals⟩ := s
      obtain rfl : keys = ∅ := hs
      exact congrArg (Values.mk ∅) (funext fun k => (Finset.notMem_empty k.1 k.2).elim)
    refine (restoreRedactedValues_of_empty hs _).trans ?_
    exact congrArg (fun s => Except.ok (some s)) hsame
  · refine (restoreRedactedValues_eq hs _).trans ?_
    rw [value_asValues (isDict_redactNode s), restoreNode_redactNode s.value (by decide)]
    rfl

/-- **Masked settings hide every secret and restore exactly**, as far as Python's equality is. -/
theorem secretFields_spec : (∀ s s' : Values, AlikeButSecrets s.value s'.value →
      redactSecretLikeValues (some s) = redactSecretLikeValues (some s')) ∧
    (∀ s : Values, restoreRedactedValues (redactSecretLikeValues (some s)) (some s) = .ok (some s)) ∧
    ∀ e s : Values, Exact e.value s.value 0 →
      (∀ r, restoreRedactedValues (some e) (some s) = .ok (some r) →
        RestoredFrom (some s.value) e.value 0 r.value ∧ KeptButMasks e.value r.value ∧
          ∀ path a, Leaf r.value path a → Leaf e.value path a ∨ Leaf s.value path a) ∧
      (restoreRedactedValues (some e) (some s) = .error .unresolved ↔
        s.keys ≠ ∅ ∧ Unresolved (some s.value) e.value 0) := by
  refine ⟨fun s s' halike => ?_, restore_redact, fun e s hexact => ⟨fun r hr => ?_, ?_⟩⟩
  · exact congrArg (fun v => some (asValues v)) (redactNode_eq_of_alike halike 0)
  · have hrestored : RestoredFrom (some s.value) e.value 0 r.value ∧
        KeptButMasks e.value r.value := by
      by_cases hs : s.keys = ∅
      · rw [restoreRedactedValues_of_empty hs] at hr
        cases hr
        exact ⟨.kept .., .refl _⟩
      · rw [restoreRedactedValues_eq hs] at hr
        obtain ⟨restored, hrestored, heq⟩ := map_eq_ok.mp hr
        obtain ⟨hfrom, hkept⟩ := @restoredFrom_of_ok e.value restored (some s.value) 0 hexact hrestored
        rw [← Option.some.inj heq, value_asValues (isDict_of_kept hkept rfl)]
        exact ⟨hfrom, hkept⟩
    refine ⟨hrestored.1, hrestored.2, fun path a hleaf => ?_⟩
    refine (leaf_of_restoredFrom hrestored.1 hleaf).imp_right ?_
    rintro ⟨s', hs', hleaf'⟩
    cases hs'
    exact hleaf'
  · by_cases hs : s.keys = ∅
    · rw [restoreRedactedValues_of_empty hs]
      exact ⟨fun h => (nomatch h), fun h => (h.1 hs).elim⟩
    · have herror := @restoreNode_error e.value (some s.value) 0 hexact
      rw [restoreRedactedValues_eq hs, map_eq_error]
      exact ⟨fun h => ⟨hs, herror.mp h⟩, fun h => herror.mpr h.2⟩

def server (apiKey : String) : PyValue := .dict [("api_key", .scalar (.str apiKey))]

def twoServers : Values := asValues (.dict [("servers", .ofList [server "a", server "b"])])

example : Exact (redactNode twoServers.value 0) twoServers.value 0 :=
  exact_of_worded (by decide +kernel) (by decide +kernel) 0

def flags (a : Scalar) : Values := asValues (.dict [("flags", .ofList [.scalar a])])

def flag (values : Values) : Option Scalar :=
  (get values.value "flags").bind fun list => list.items.head?.bind PyValue.scalar?

/-- An unchanged list is restored although its entries with masks fit two stored ones that differ, a mask
is returned where nothing is stored, and a stored `1` takes the place of a submitted `True`. -/
theorem unchanged_and_loose :
    (restoreRedactedValues (redactSecretLikeValues (some twoServers)) (some twoServers) =
        .ok (some twoServers) ∧ carriesMask (redactNode (server "a") 2) 2 = true ∧
      redactNode (server "a") 2 = redactNode (server "b") 2 ∧
      (get (server "a") "api_key").bind PyValue.scalar? ≠
        (get (server "b") "api_key").bind PyValue.scalar?) ∧
    restoreRedactedValues (redactSecretLikeValues (some twoServers)) (some (asValues (.dict []))) =
      .ok (redactSecretLikeValues (some twoServers)) ∧
    (restoreRedactedValues (some (flags (.bool true))) (some (flags (.int 1)))).toOption.join.bind flag =
      some (.int 1) := by
  refine ⟨⟨restore_redact twoServers, by decide +kernel, ?_, by decide +kernel⟩,
    restoreRedactedValues_of_empty rfl _, by decide +kernel⟩
  refine redactNode_eq_of_alike (.obj fun k hk => ?_) 2
  have hname : k.1 = "api_key" := by simpa using k.2
  rw [hname] at hk
  exact absurd hk (by decide +kernel)

end Otari.SecretFields
