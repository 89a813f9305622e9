import CoverRun.Proofs.Coverage.Operations
import Mathlib.Algebra.BigOperators.Group.Finset.Basic
import Mathlib.Algebra.Order.BigOperators.Group.Finset

/-!
# The history of a table

The figures of a table are those of the operations that made it: the sites are those that were
registered, the sites with hits are those to which something was added since, and all hits are the
sum of these. To stop at the limit with each addition comes to the same as to stop once at the end,
for the hits of one site and again for those of all. Together with what a table holds of each site,
this is all that can be seen of it (`SiteTable.run_follows_history`).
-/

namespace CoverRun

/-! ## Sums that stop at the limit -/

theorem Hits.upTo_eq_zero_iff {n : Nat} : upTo n = 0 ↔ n = 0 := by
  rw [← UInt64.toNat_inj, toNat_upTo, UInt64.toNat_zero]
  omega

theorem Hits.foldl_plus (hits : List Hits) (n : Nat) :
    hits.foldl plus (upTo n) = upTo (n + (hits.map UInt64.toNat).sum) := by
  induction hits generalizing n with
  | nil => rfl
  | cons a hits ih =>
      rw [List.foldl_cons, plus_eq, upTo_upTo_add, ih, List.map_cons, List.sum_cons, Nat.add_assoc]

/-- Numbers that stop at a limit have a sum that reaches it exactly if their exact sum does. -/
theorem min_sum_min {ι : Type} [DecidableEq ι] (s : Finset ι) (f : ι → Nat) (limit : Nat) :
    min limit (∑ i ∈ s, min limit (f i)) = min limit (∑ i ∈ s, f i) := by
  induction s using Finset.induction_on with
  | empty => rfl
  | insert i s hi ih =>
      rw [Finset.sum_insert hi, Finset.sum_insert hi]
      omega

namespace SiteTable

/-! ## Sites -/

/-- The site that an operation registers, if it registers one. -/
def Operation.registered? : Operation → Option String
  | .register site _ => some site
  | .addHits _ _ => none

/-- The sites that were registered. -/
def registered (ops : List Operation) : Finset String :=
  (ops.filterMap Operation.registered?).toFinset

theorem mem_registered {ops : List Operation} {site : String} :
    site ∈ registered ops ↔ ∃ metadata, .register site metadata ∈ ops := by
  rw [registered, List.mem_toFinset, List.mem_filterMap]
  constructor
  · rintro ⟨op, hMem, hSite⟩
    cases op with
    | register s metadata =>
        obtain rfl := Option.some.inj hSite
        exact ⟨metadata, hMem⟩
    | addHits s n => cases hSite
  · rintro ⟨metadata, hMem⟩
    exact ⟨_, hMem, rfl⟩

theorem knows_run {ops : List Operation} {site : String} :
    (run ops).knows site = true ↔ site ∈ registered ops := by
  change ((run ops).find? site).isSome = true ↔ _
  rw [find?_run, Option.isSome_map, isSome_lastMetadata?_iff, mem_registered]

theorem toFinset_keys_run (ops : List Operation) :
    (run ops).sites.keys.toFinset = registered ops := by
  ext site
  rw [List.mem_toFinset, ← knows_run, ← not_iff_not, ← OrderedMap.find?_eq_none_iff,
    ← Option.not_isSome_iff_eq_none]
  rfl

/-- The hits of the sites are what was added to each of them, in the order of the sites. -/
theorem hits_run (ops : List Operation) :
    (run ops).sites.values.map (·.hits) =
      (run ops).sites.keys.map fun site => Hits.upTo (addedSince ops site) := by
  rw [OrderedMap.values, OrderedMap.keys, List.map_map, List.map_map]
  refine List.map_congr_left fun e he => ?_
  have hFind : (run ops).find? e.1 = some e.2 := OrderedMap.find?_eq_some_iff.2 he
  rw [find?_run] at hFind
  obtain ⟨metadata, -, hCounter⟩ := Option.map_eq_some_iff.1 hFind
  exact (congrArg SiteCounter.hits hCounter).symm

/-! ## Whether hits are added -/

theorem fst_tryAddHits (t : SiteTable) (site : String) (n : Hits) :
    (t.tryAddHits site n).1 = t.knows site := by
  change _ = (t.find? site).isSome
  rw [tryAddHits]
  cases t.find? site <;> rfl

theorem snd_tryAddHits_of_not (t : SiteTable) (site : String) (n : Hits)
    (h : (t.tryAddHits site n).1 = false) : (t.tryAddHits site n).2 = t := by
  rw [tryAddHits] at h ⊢
  cases hFind : t.find? site with
  | none => rfl
  | some counter =>
      rw [hFind] at h
      cases h

/-! ## Figures -/

theorem totalSites_run (ops : List Operation) :
    (run ops).summary.totalSites = (registered ops).card := by
  rw [← toFinset_keys_run, List.toFinset_card_of_nodup (run ops).sites.nodup_keys]
  exact (List.length_map ..).symm

theorem hitSites_run (ops : List Operation) :
    (run ops).summary.hitSites = ((registered ops).filter (0 < addedSince ops ·)).card := by
  have hHit (site : String) : decide (Hits.upTo (addedSince ops site) ≠ 0) =
      decide (0 < addedSince ops site) := by
    rw [decide_eq_decide, ne_eq, Hits.upTo_eq_zero_iff, Nat.pos_iff_ne_zero]
  have hFilter : (registered ops).filter (0 < addedSince ops ·) =
      ((run ops).sites.keys.filter fun site => 0 < addedSince ops site).toFinset := by
    rw [List.toFinset_filter, toFinset_keys_run]
    simp only [decide_eq_true_eq]
  rw [hFilter, List.toFinset_card_of_nodup ((run ops).sites.nodup_keys.filter _)]
  simp only [summary, hits_run, List.filter_map, List.length_map, Function.comp_def, hHit]

/-- The hits of all sites stop once more at the limit. -/
theorem totalHits_run (ops : List Operation) :
    (run ops).summary.totalHits =
      Hits.upTo (∑ site ∈ registered ops, min (2 ^ 64 - 1) (addedSince ops site)) := by
  have hStart : (0 : Hits) = Hits.upTo 0 := rfl
  rw [← toFinset_keys_run, List.sum_toFinset _ (run ops).sites.nodup_keys]
  simp only [summary, hits_run]
  rw [hStart, Hits.foldl_plus, Nat.zero_add, List.map_map]
  simp only [Function.comp_def, Hits.toNat_upTo]

theorem totalHits_eq_zero_iff (ops : List Operation) :
    (run ops).summary.totalHits = 0 ↔ (run ops).summary.hitSites = 0 := by
  have hEach (n : Nat) : min (2 ^ 64 - 1) n = 0 ↔ ¬ 0 < n := by omega
  rw [totalHits_run, hitSites_run, Hits.upTo_eq_zero_iff, Finset.sum_eq_zero_iff,
    Finset.card_eq_zero, Finset.filter_eq_empty_iff]
  simp only [hEach]

/-- **A table follows its history.** After any operations on the empty table, a site is known
exactly if it was registered. Its metadata are what its last registration describes, and its hits
are what was added to it since, as far as 64 bits go. To add hits next tells truly whether the site
is known, and changes nothing if it is not. The figures are the number of sites, the number of those
to which something was added, and the hits of all sites, which stop at the limit as if those of each
site had not stopped there. -/
theorem run_follows_history (ops : List Operation) :
    let t := run ops
    (∀ site, site ∈ registered ops ↔ ∃ metadata, .register site metadata ∈ ops) ∧
      (∀ site, t.knows site = true ↔ site ∈ registered ops) ∧
      (∀ site counter, t.find? site = some counter →
        (∃ metadata, lastMetadata? ops site = some metadata ∧
          Describes metadata.val counter.metadata) ∧
        counter.hits.toNat = min (2 ^ 64 - 1) (addedSince ops site)) ∧
      (∀ site n, ((t.tryAddHits site n).1 = true ↔ site ∈ registered ops) ∧
        ((t.tryAddHits site n).1 = false → (t.tryAddHits site n).2 = t) ∧
        (t.tryAddHits site n).2 = run (ops ++ [.addHits site n])) ∧
      t.summary.totalSites = (registered ops).card ∧
      t.summary.hitSites = ((registered ops).filter (0 < addedSince ops ·)).card ∧
      t.summary.totalHits.toNat =
        min (2 ^ 64 - 1) (∑ site ∈ registered ops, min (2 ^ 64 - 1) (addedSince ops site)) ∧
      t.summary.totalHits.toNat =
        min (2 ^ 64 - 1) (∑ site ∈ registered ops, addedSince ops site) ∧
      (t.summary.totalHits = 0 ↔ t.summary.hitSites = 0) := by
  intro t
  have hTotal : t.summary.totalHits.toNat =
      min (2 ^ 64 - 1) (∑ site ∈ registered ops, min (2 ^ 64 - 1) (addedSince ops site)) := by
    rw [totalHits_run, Hits.toNat_upTo]
  refine ⟨fun _ => mem_registered, fun _ => knows_run, ?_, ?_, totalSites_run ops,
    hitSites_run ops, hTotal, hTotal.trans (min_sum_min ..), totalHits_eq_zero_iff ops⟩
  · intro site counter hFind
    rw [find?_run] at hFind
    obtain ⟨metadata, hLast, rfl⟩ := Option.map_eq_some_iff.1 hFind
    exact ⟨⟨metadata, hLast, describes_metadataOf metadata.val⟩, Hits.toNat_upTo _⟩
  · intro site n
    refine ⟨?_, t.snd_tryAddHits_of_not site n, (run_concat ops (.addHits site n)).symm⟩
    rw [fst_tryAddHits, knows_run]

/-- One site reaches the limit, another starts anew, and a third is never known. -/
example :
    (run [.register "a" ⟨.null, .null⟩, .addHits "a" 18446744073709551615, .addHits "a" 1,
      .register "b" ⟨.null, .null⟩, .addHits "b" 3, .addHits "c" 9,
      .register "b" ⟨.null, .null⟩]).summary = ⟨2, 1, 18446744073709551615⟩ := by
  decide +kernel

end SiteTable

end CoverRun
