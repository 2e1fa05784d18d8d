import Otari.Caches.StoredCaches

/-!
# Caches — NeverGoBack — whether a worker's lookups can lose a write they had

Every lookup answers from its cache alone, so it reflects what the cache was made from (`Reflects`).
All four refresh on the session of the write they follow, whose own rows come as they were loaded.  Of
the four only that of the hosted access numbers itself, and its cache reflects every write whose refresh
has returned where no row a refresh's session held was changed meanwhile.  The other three do where,
besides, no swap comes from reads made before such a write.  Elsewhere each can hold older rows
(`lookups_go_back`).
-/

namespace Otari.Caches
open Refreshing

variable {Spec PolicySpec : Type}

/-- The cache was made from rows no older than each write whose refresh has returned. -/
def Reflects {ι D H C : Type} (build : (ι → D) → C) (w : Worker ι D H C) : Prop :=
  ∀ v ∈ w.returned, ∃ rows : ι → D,
    (∀ i, ∃ version, v ≤ version ∧ w.versions[version]? = some (rows i)) ∧ w.cache = build rows

theorem reflects_of_inStep {ι D H C : Type} {build : (ι → D) → C} {w : Worker ι D H C}
    (h : w.InStep build) : Reflects build w := by
  intro v hv
  rcases h with hnil | ⟨seen, ⟨rows, hrows, hcache⟩, hseen⟩
  · rw [hnil] at hv
    cases hv
  · exact ⟨rows, fun i => ⟨seen i, hseen v hv i, hrows i⟩, hcache⟩

/-- A worker with one of the caches, whose sessions hold rows of the database. -/
abbrev CacheWorker (Read Spec C : Type) := Worker Read (Database Spec) (Database Spec) C

abbrev CacheAction (Read Spec : Type) := Action Read (Database Spec) (Database Spec)

abbrev AliasWorker (Spec : Type) := CacheWorker NamedRead Spec (NamedCache String)
abbrev PolicyWorker (Spec PolicySpec : Type) := CacheWorker NamedRead Spec (NamedCache PolicySpec)
abbrev KeyWorker (Spec : Type) := CacheWorker KeyRead Spec OrgProviderCache
abbrev HostedWorker (Spec : Type) := CacheWorker HostedRead Spec HostedAccessCache

/-- A step of the alias cache, whose refreshes have no numbers. -/
def aliasStep : AliasWorker Spec → CacheAction NamedRead Spec → Option (AliasWorker Spec) :=
  Worker.step false selectNamed refreshAliasCache

/-- A step of the policy cache, whose refreshes have no numbers. -/
def policyStep (validate : Spec → Option PolicySpec) :
    PolicyWorker Spec PolicySpec → CacheAction NamedRead Spec → Option (PolicyWorker Spec PolicySpec) :=
  Worker.step false selectNamed (refreshPolicyCache validate)

/-- A step of the organization key cache, whose refreshes have no numbers. -/
def keyStep (decrypt : String → Option String) :
    KeyWorker Spec → CacheAction KeyRead Spec → Option (KeyWorker Spec) :=
  Worker.step false selectKeys (refreshOrgProviderCache decrypt)

/-- A step of the hosted access cache, whose refreshes are numbered. -/
def hostedStep : HostedWorker Spec → CacheAction HostedRead Spec → Option (HostedWorker Spec) :=
  Worker.step true selectHosted refreshWorkspaceHostedAccessCache

/-- A swap whose reads returned what was committed, none of it before a write whose own refresh has
returned. -/
def CurrentAndTimely {Read C : Type} (select : Database Spec → Read → Database Spec → Database Spec)
    (w : CacheWorker Read Spec C) (action : CacheAction Read Spec) : Prop :=
  Worker.Current select w action ∧ Worker.Timely w action

/-- **The hosted access cache never goes back where its refreshes' reads return what was committed; the
others do not where, besides, their swaps are timely.** -/
theorem lookups_never_go_back (validate : Spec → Option PolicySpec) (decrypt : String → Option String) :
    (∀ w : HostedWorker Spec, Runs.Reached Worker.Start hostedStep (Worker.Current selectHosted) w →
      Reflects refreshWorkspaceHostedAccessCache w) ∧
    (∀ w : AliasWorker Spec, Runs.Reached Worker.Start aliasStep (CurrentAndTimely selectNamed) w →
      Reflects refreshAliasCache w) ∧ (∀ w : PolicyWorker Spec PolicySpec,
      Runs.Reached Worker.Start (policyStep validate) (CurrentAndTimely selectNamed) w →
        Reflects (refreshPolicyCache validate) w) ∧
    ∀ w : KeyWorker Spec, Runs.Reached Worker.Start (keyStep decrypt) (CurrentAndTimely selectKeys) w →
      Reflects (refreshOrgProviderCache decrypt) w :=
  ⟨fun _ h => reflects_of_inStep (Worker.inStep_of_numbered h),
    fun _ h => reflects_of_inStep (Worker.inStep_of_timely h),
    fun _ h => reflects_of_inStep (Worker.inStep_of_timely h),
    fun _ h => reflects_of_inStep (Worker.inStep_of_timely h)⟩

/-! ### The caches that go back -/

@[simp] theorem asHeld_nil {R : Type} (id : R → ℕ) : asHeld id [] = fun row => row := rfl

theorem selectNamed_nothing (read : NamedRead) (db : Database Spec) : selectNamed {} read db = db := by
  cases read <;> simp [selectNamed]

theorem selectKeys_nothing (read : KeyRead) (db : Database Spec) : selectKeys {} read db = db := by
  cases read <;> simp [selectKeys]

theorem not_reflects {ι D H C A : Type} {build : (ι → D) → C} {w : Worker ι D H C} {before after : D}
    (lookup : C → A) (hversions : w.versions = [before, after]) (hreturned : 1 ∈ w.returned)
    (hlookup : lookup w.cache ≠ lookup (build fun _ => after)) : ¬ Reflects build w := by
  intro hreflects
  obtain ⟨rows, hrows, hmade⟩ := hreflects 1 hreturned
  have hafter : rows = fun _ => after := by
    funext i
    obtain ⟨version, hle, hversion⟩ := hrows i
    rw [hversions] at hversion
    obtain ⟨hlt, hget⟩ := List.getElem?_eq_some_iff.mp hversion
    obtain rfl : version = 1 := le_antisymm (Nat.lt_succ_iff.mp hlt) hle
    exact hget.symm
  exact hlookup (by rw [hmade, hafter])

theorem goes_back {ι D H C A : Type} [Fintype ι] [DecidableEq ι] (view : H → ι → D → D)
    (build : (ι → D) → C) (cache : C) (before after : D) (lookup : C → A) (nothing : H)
    (hnothing : ∀ i state, view nothing i state = state)
    (hlookup : lookup (build fun _ => before) ≠ lookup (build fun _ => after)) :
    ∃ w, Runs.Reached Worker.Start (Worker.step false view build) (fun _ _ => True) w ∧
      lookup w.cache = lookup (build fun _ => before) ∧ ¬ Reflects build w := by
  obtain ⟨w, hreached, hversions, hreturned, hcache⟩ :=
    Worker.overtaken view build cache before after nothing hnothing
  refine ⟨w, hreached, congrArg lookup hcache, not_reflects lookup hversions ?_ (hcache ▸ hlookup)⟩
  rw [hreturned]
  exact List.mem_singleton_self 1

/-- A database with one alias, and a policy of the same name. -/
def named (value : String) : Database String where
  modelAliases := [⟨1, 1, none, "fast", value⟩]
  routingPolicies := [⟨1, 1, none, "fast", value⟩]

/-- A database with one key, whose models one workspace narrows. -/
def narrowedTo (models : List String) : Database String where
  workspaces := [⟨1, 1, defaultWorkspaceName, 0⟩]
  keys := [⟨7, 1, "openai", "main", none, none, [], some "sealed", none, true, false, 0⟩]
  restrictions := models.map fun model => ⟨1, 1, 7, model⟩

/-- A database where one workspace narrows a hosted provider, or switches it off as well. -/
def hostedTo (enabled : Bool) : Database String where
  hostedAccess := [⟨1, 1, "openai", enabled, some {"gpt-5"}⟩]

/-- An alias retargeted, a policy changed and a model list narrowed are undone by a slower refresh, and
a provider switched off by one whose session still holds the row it wrote. -/
theorem lookups_go_back :
    (∃ w : AliasWorker String, Runs.Reached Worker.Start aliasStep (fun _ _ => True) w ∧
      resolveEffectiveAlias .empty w.cache "fast" none (some 1) = some "openai:old" ∧
        ¬ Reflects refreshAliasCache w) ∧
    (∃ w : PolicyWorker String String, Runs.Reached Worker.Start (policyStep some) (fun _ _ => True) w ∧
      resolveEffectivePolicy ⟨true, .empty⟩ w.cache "fast" none (some 1) = some "unguarded" ∧
        ¬ Reflects (refreshPolicyCache some) w) ∧
    (∃ w : KeyWorker String, Runs.Reached Worker.Start (keyStep some) (fun _ _ => True) w ∧
      cachedOrgModelRestriction w.cache 1 "openai" = some ["gpt-5", "o9"] ∧
        ¬ Reflects (refreshOrgProviderCache some) w) ∧
    ∃ w : HostedWorker String, Runs.Reached Worker.Start hostedStep (fun _ _ => True) w ∧
      workspaceMayUseHosted (fun _ => false) w.cache 1 "openai" none = true ∧
        ¬ Reflects refreshWorkspaceHostedAccessCache w := by
  refine ⟨?_, ?_, ?_, ?_⟩
  · obtain ⟨w, hreached, hlookup, hnot⟩ := goes_back selectNamed refreshAliasCache {}
      (named "openai:old") (named "openai:new")
      (fun cache => resolveEffectiveAlias .empty cache "fast" none (some 1)) {} selectNamed_nothing
      (by decide +kernel)
    exact ⟨w, hreached, hlookup.trans (by decide +kernel), hnot⟩
  · obtain ⟨w, hreached, hlookup, hnot⟩ := goes_back selectNamed (refreshPolicyCache some) {}
      (named "unguarded") (named "guarded")
      (fun cache => resolveEffectivePolicy ⟨true, .empty⟩ cache "fast" none (some 1)) {}
      selectNamed_nothing (by decide +kernel)
    exact ⟨w, hreached, hlookup.trans (by decide +kernel), hnot⟩
  · obtain ⟨w, hreached, hlookup, hnot⟩ := goes_back selectKeys (refreshOrgProviderCache some) {}
      (narrowedTo ["gpt-5", "o9"]) (narrowedTo ["gpt-5"])
      (fun cache => cachedOrgModelRestriction cache 1 "openai") {} selectKeys_nothing (by decide +kernel)
    exact ⟨w, hreached, hlookup.trans (by decide +kernel), hnot⟩
  · let lookup (cache : HostedAccessCache) : Bool :=
      workspaceMayUseHosted (fun _ => false) cache 1 "openai" none
    obtain ⟨w, hreached, hversions, hreturned, hcache⟩ := Worker.heldBack true selectHosted
      refreshWorkspaceHostedAccessCache {} (hostedTo true) (hostedTo false) {} (hostedTo true)
    have hlookup : lookup w.cache = true := by
      rw [hcache]
      decide +kernel
    refine ⟨w, hreached, hlookup, not_reflects lookup hversions (by simp [hreturned]) ?_⟩
    rw [hlookup]
    decide +kernel

end Otari.Caches
