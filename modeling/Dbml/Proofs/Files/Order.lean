import Dbml.Files.Path

/-!
# The order of paths

Paths are compared by their components, and two paths come out equal only if they say the same
(`Path.compare_eq_iff_same`). So once they have been sorted, and those that say the same as the one
before them left out, paths are strictly increasing (`Path.pairwise_sortUnique`); and that is the
only order that they can be in (`Path.sortUnique_of_perm`). Nothing that a path says is lost
(`Path.exists_mem_sortUnique`).
-/

namespace Dbml

namespace Component

theorem key_inj {a b : Component} (h : a.key = b.key) : a = b := by
  cases a <;> cases b <;> simp_all [key]

instance : Std.TransOrd Component :=
  inferInstanceAs (Std.TransCmp (compareLex (compareOn fun c : Component => c.key.1)
    (compareOn fun c : Component => c.key.2)))

instance : Std.LawfulEqOrd Component where
  eq_of_compare {a b} h := by
    obtain ⟨hsort, hname⟩ := Ordering.then_eq_eq.1 h
    exact key_inj (Prod.ext (Std.LawfulEqOrd.eq_of_compare hsort)
      (Std.LawfulEqOrd.eq_of_compare hname))

/-- The order of lists of components is the lexicographic one. -/
theorem compareAll_eq (as bs : List Component) :
    compareAll as bs = List.compareLex compare as bs := by
  fun_induction compareAll as bs with
  | case1 => rfl
  | case2 => rfl
  | case3 => rfl
  | case4 a as b bs ih => rw [ih, List.compareLex_cons_cons]

end Component

namespace Path

theorem compare_eq (p q : Path) :
    compare p q = List.compareLex compare p.components q.components :=
  Component.compareAll_eq p.components q.components

instance : Std.TransOrd Path where
  eq_swap {p q} := by
    rw [compare_eq, compare_eq]
    exact Std.OrientedCmp.eq_swap
  isLE_trans {p q r} hpq hqr := by
    rw [compare_eq] at hpq hqr ⊢
    exact Std.TransCmp.isLE_trans hpq hqr

/-- Two paths are equal in the order if they have the same components. -/
theorem compare_eq_iff_same {p q : Path} : compare p q = .eq ↔ p.same q = true := by
  rw [compare_eq, Std.LawfulEqCmp.compare_eq_iff_eq, same, beq_iff_eq]

/-- What is sorted is strictly sorted once repetitions are left out. -/
theorem pairwise_thin {p : Path} {qs : List Path}
    (h : (p :: qs).Pairwise fun p q => (compare p q).isLE = true) :
    (p :: thin p qs).Pairwise fun p q => compare p q = .lt := by
  induction qs generalizing p with
  | nil => simp [thin]
  | cons q qs ih =>
    obtain ⟨hp, hqs⟩ := List.pairwise_cons.1 h
    rw [thin]
    split
    · -- `q` says the same as `p`, and the rest comes after `p` as it does after `q`
      exact ih (List.pairwise_cons.2
        ⟨fun r hr => hp r (List.mem_cons_of_mem q hr), (List.pairwise_cons.1 hqs).2⟩)
    · rename_i hsame
      have hlt : compare p q = .lt := by
        have hne : compare p q ≠ .eq := fun heq => hsame (compare_eq_iff_same.1 heq)
        have hle := hp q List.mem_cons_self
        cases hc : compare p q with
        | lt => rfl
        | eq => exact absurd hc hne
        | gt => rw [hc] at hle; cases hle
      have hthin := ih hqs
      refine List.pairwise_cons.2 ⟨fun r hr => ?_, hthin⟩
      rcases List.mem_cons.1 hr with rfl | hr
      · exact hlt
      · exact Std.TransCmp.lt_trans hlt ((List.pairwise_cons.1 hthin).1 r hr)

/-- The order that paths are sorted by, before those that say the same are left out. -/
theorem pairwise_mergeSort (ps : List Path) :
    (ps.mergeSort fun p q => compare p q != .gt).Pairwise fun p q => (compare p q).isLE = true := by
  have hle (p q : Path) : (compare p q != .gt) = (compare p q).isLE := by
    cases compare p q <;> rfl
  simp only [hle]
  apply List.pairwise_mergeSort
  · intro p q r
    exact Std.TransCmp.isLE_trans
  · intro p q
    rw [Std.OrientedOrd.eq_swap (a := q) (b := p)]
    cases compare p q <;> rfl

/-- The paths found are strictly increasing. -/
theorem pairwise_sortUnique (ps : List Path) :
    (sortUnique ps).Pairwise fun p q => compare p q = .lt := by
  have hsorted := pairwise_mergeSort ps
  unfold sortUnique
  cases hs : ps.mergeSort fun p q => compare p q != .gt with
  | nil => exact .nil
  | cons p qs =>
    rw [hs] at hsorted
    exact pairwise_thin hsorted

/-- Where nothing is repeated, nothing is left out. -/
theorem thin_of_pairwise {p : Path} {qs : List Path}
    (h : (p :: qs).Pairwise fun p q => compare p q = .lt) : thin p qs = qs := by
  induction qs generalizing p with
  | nil => rfl
  | cons q qs ih =>
    obtain ⟨hp, hqs⟩ := List.pairwise_cons.1 h
    have hne : ¬ p.same q = true := by
      rw [← compare_eq_iff_same, hp q List.mem_cons_self]
      exact fun h => nomatch h
    rw [thin, if_neg hne, ih hqs]

/-- Among strictly increasing paths no two say the same. -/
theorem eq_of_compare_eq {qs : List Path} (hqs : qs.Pairwise fun p q => compare p q = .lt)
    {p q : Path} (hp : p ∈ qs) (hq : q ∈ qs) (heq : compare p q = .eq) : p = q := by
  induction hqs with
  | nil => cases hp
  | @cons r qs hr _ ih =>
    rcases List.mem_cons.1 hp with rfl | hp' <;> rcases List.mem_cons.1 hq with rfl | hq'
    · rfl
    · rw [hr q hq'] at heq
      cases heq
    · rw [Std.OrientedOrd.eq_swap, hr p hp'] at heq
      cases heq
    · exact ih hp' hq'

/-- Paths that can be put in strictly increasing order are found in that order. -/
theorem sortUnique_of_perm {ps qs : List Path} (hperm : ps.Perm qs)
    (hqs : qs.Pairwise fun p q => compare p q = .lt) : sortUnique ps = qs := by
  have hsort : (ps.mergeSort fun p q => compare p q != .gt) = qs := by
    have hperm := (List.mergeSort_perm ps fun p q => compare p q != .gt).trans hperm
    refine hperm.eq_of_pairwise (fun p q hp hq hpq hqp => ?_) (pairwise_mergeSort ps)
      (hqs.imp fun h => by rw [h]; rfl)
    exact eq_of_compare_eq hqs (hperm.subset hp) hq (Std.OrientedCmp.isLE_antisymm hpq hqp)
  unfold sortUnique
  rw [hsort]
  cases qs with
  | nil => rfl
  | cons p qs => simp only [thin_of_pairwise hqs]

/-! ## What is kept -/

theorem mem_of_mem_thin {p r : Path} {qs : List Path} (h : r ∈ thin p qs) : r ∈ qs := by
  induction qs generalizing p with
  | nil => exact h
  | cons q qs ih =>
    rw [thin] at h
    split at h
    · exact List.mem_cons_of_mem q (ih h)
    · rcases List.mem_cons.1 h with rfl | h
      · exact List.mem_cons_self
      · exact List.mem_cons_of_mem q (ih h)

theorem same_iff {p q : Path} : p.same q = true ↔ p.components = q.components := beq_iff_eq

/-- Of every path that is left out, one with the same components stays. -/
theorem exists_mem_thin {p q : Path} {qs : List Path} (hq : q ∈ p :: qs) :
    ∃ r ∈ p :: thin p qs, r.same q = true := by
  induction qs generalizing p with
  | nil => exact ⟨q, hq, same_iff.2 rfl⟩
  | cons q' qs ih =>
    rw [thin]
    split
    · rename_i hsame
      rcases List.mem_cons.1 hq with rfl | hq
      · exact ⟨q, List.mem_cons_self, same_iff.2 rfl⟩
      · rcases List.mem_cons.1 hq with rfl | hq
        · exact ⟨p, List.mem_cons_self, hsame⟩
        · exact ih (List.mem_cons_of_mem p hq)
    · rcases List.mem_cons.1 hq with rfl | hq
      · exact ⟨q, List.mem_cons_self, same_iff.2 rfl⟩
      · obtain ⟨r, hr, hsame⟩ := ih hq
        exact ⟨r, List.mem_cons_of_mem p hr, hsame⟩

theorem mem_of_mem_sortUnique {ps : List Path} {r : Path} (h : r ∈ sortUnique ps) : r ∈ ps := by
  rw [← (List.mergeSort_perm ps fun p q => compare p q != .gt).mem_iff]
  unfold sortUnique at h
  cases hs : ps.mergeSort fun p q => compare p q != .gt with
  | nil =>
    rw [hs] at h
    exact h
  | cons p qs =>
    rw [hs] at h
    rcases List.mem_cons.1 h with rfl | h
    · exact List.mem_cons_self
    · exact List.mem_cons_of_mem p (mem_of_mem_thin h)

/-- Of each path one that says the same is kept. -/
theorem exists_mem_sortUnique {ps : List Path} {q : Path} (h : q ∈ ps) :
    ∃ r ∈ sortUnique ps, r.same q = true := by
  rw [← (List.mergeSort_perm ps fun p q => compare p q != .gt).mem_iff] at h
  unfold sortUnique
  cases hs : ps.mergeSort fun p q => compare p q != .gt with
  | nil =>
    rw [hs] at h
    cases h
  | cons p qs =>
    rw [hs] at h
    exact exists_mem_thin h

/-- Strictly increasing paths are determined by what they say. -/
theorem map_components_eq {qs rs : List Path} (hqs : qs.Pairwise fun p q => compare p q = .lt)
    (hrs : rs.Pairwise fun p q => compare p q = .lt)
    (h : ∀ cs, cs ∈ qs.map components ↔ cs ∈ rs.map components) :
    qs.map components = rs.map components := by
  have hlt {qs : List Path} (hqs : qs.Pairwise fun p q => compare p q = .lt) :
      (qs.map components).Pairwise fun as bs => List.compareLex compare as bs = .lt := by
    simpa only [List.pairwise_map, compare_eq] using hqs
  have hne {as bs : List Component} (h : List.compareLex compare as bs = .lt) : as ≠ bs := by
    rintro rfl
    have hself : List.compareLex compare as as = .eq := Std.ReflCmp.compare_self
    rw [hself] at h
    cases h
  have hperm := (List.perm_ext_iff_of_nodup ((hlt hqs).imp hne) ((hlt hrs).imp hne)).2 h
  refine hperm.eq_of_pairwise (fun as bs _ _ hab hba => ?_) (hlt hqs) (hlt hrs)
  have hswap : List.compareLex compare as bs = (List.compareLex compare bs as).swap :=
    Std.OrientedCmp.eq_swap
  rw [hswap, hba] at hab
  cases hab

end Path

end Dbml
