import Dbml.Files.Path

/-!
# The pieces of a path

A path is cut into pieces at its slashes, and what it says is in the pieces, one component for each
that says anything. A piece that is joined on is one more piece at the end, and so one more
component (`Path.components_join`).
-/

namespace Dbml

/-! ## Pieces -/

theorem pieces_ne_nil (cs : List Char) : pieces cs ≠ [] := by
  fun_induction pieces cs <;> simp_all

/-- A slash divides the pieces of a text into those before it and those after it. -/
theorem pieces_append_slash (as bs : List Char) :
    pieces (as ++ '/' :: bs) = pieces as ++ pieces bs := by
  induction as with
  | nil => simp [pieces]
  | cons a as ih =>
    rw [List.cons_append, pieces, pieces, ih]
    split
    · rfl
    · obtain ⟨p, ps, h⟩ := List.exists_cons_of_ne_nil (pieces_ne_nil as)
      simp [h]

/-- What has no slash is a part of the first piece of what follows. -/
theorem pieces_append_of_not_mem {as bs p : List Char} {ps : List (List Char)} (has : '/' ∉ as)
    (hbs : pieces bs = p :: ps) : pieces (as ++ bs) = (as ++ p) :: ps := by
  induction as with
  | nil => exact hbs
  | cons a as ih =>
    obtain ⟨ha, has⟩ := not_or.1 (mt List.mem_cons.2 has)
    rw [List.cons_append, pieces, if_neg (Ne.symm ha), ih has]
    rfl

theorem pieces_of_not_mem {cs : List Char} (h : '/' ∉ cs) : pieces cs = [cs] := by
  induction cs with
  | nil => rfl
  | cons c cs ih =>
    obtain ⟨hc, hcs⟩ := not_or.1 (mt List.mem_cons.2 h)
    rw [pieces, if_neg (Ne.symm hc), ih hcs]

theorem not_mem_of_mem_pieces {cs p : List Char} (h : p ∈ pieces cs) : '/' ∉ p := by
  fun_induction pieces cs generalizing p with
  | case1 => simp_all
  | case2 => grind
  | case3 c cs hc hn => exact absurd hn (pieces_ne_nil cs)
  | case4 c cs hc p ps hps ih => grind

theorem mem_pieces_of_mem {cs : List Char} {c : Char} (h : c ∈ cs) (hc : c ≠ '/') :
    ∃ p ∈ pieces cs, c ∈ p := by
  fun_induction pieces cs with
  | case1 => cases h
  | case2 cs ih => grind
  | case3 d cs hd hn => exact absurd hn (pieces_ne_nil cs)
  | case4 d cs hd p ps hps ih =>
    rcases List.mem_cons.1 h with rfl | h
    · exact ⟨c :: p, List.mem_cons_self, List.mem_cons_self⟩
    · obtain ⟨q, hq, hcq⟩ := ih h
      rw [hps] at hq
      rcases List.mem_cons.1 hq with rfl | hq
      · exact ⟨d :: q, List.mem_cons_self, List.mem_cons_of_mem d hcq⟩
      · exact ⟨q, List.mem_cons_of_mem _ hq, hcq⟩

namespace Path

theorem segments_ne_nil (p : Path) : p.segments ≠ [] := by
  simpa [segments] using pieces_ne_nil p.text.toList

theorem segments_append_slash (s t : String) :
    (mk (s ++ "/" ++ t)).segments = (mk s).segments ++ (mk t).segments := by
  simp [segments, String.toList_append, pieces_append_slash]

theorem segments_of_not_mem {s : String} (h : '/' ∉ s.toList) : (mk s).segments = [s] := by
  simp [segments, pieces_of_not_mem h]

theorem not_mem_of_mem_segments {p : Path} {s : String} (h : s ∈ p.segments) : '/' ∉ s.toList := by
  obtain ⟨cs, hcs, rfl⟩ := List.mem_map.1 h
  simpa using not_mem_of_mem_pieces hcs

theorem isAbsolute_of_not_mem {s : String} (h : '/' ∉ s.toList) : (mk s).isAbsolute = false := by
  cases hl : s.toList with
  | nil => simp [isAbsolute, hl]
  | cons c cs => grind [isAbsolute]

/-- A piece that is joined on comes last; it takes the place of the empty piece after a slash at the
end. -/
theorem exists_segments_join {p : Path} (hp : p.text ≠ "") {s : String} (hs : '/' ∉ s.toList) :
    ∃ front, front ≠ [] ∧ (p.segments = front ∨ p.segments = front ++ [""]) ∧
      (p.join ⟨s⟩).segments = front ++ [s] ∧ (p.join ⟨s⟩).isAbsolute = p.isAbsolute := by
  have hrel := isAbsolute_of_not_mem hs
  have htext : p.text.isEmpty = false := by simpa using hp
  have habs (t : String) : (mk (p.text ++ t)).isAbsolute = p.isAbsolute := by
    obtain ⟨c, cs, hcs⟩ := List.exists_cons_of_ne_nil (mt String.toList_eq_nil_iff.1 hp)
    simp [isAbsolute, String.toList_append, hcs]
  rw [join, hrel, htext, Bool.or_self, if_neg Bool.false_ne_true]
  split
  · rename_i hlast
    obtain ⟨cs, hcs⟩ : ∃ cs, p.text.toList = cs ++ ['/'] := by
      rw [beq_iff_eq] at hlast
      exact List.getLast?_eq_some_iff.1 hlast
    have hsplit : p.text = String.ofList cs ++ "/" := by
      apply String.toList_inj.1
      simp [hcs]
    refine ⟨(mk (String.ofList cs)).segments, segments_ne_nil _, .inr ?_, ?_, habs s⟩
    · have := segments_append_slash (String.ofList cs) ""
      rw [String.append_empty, ← hsplit] at this
      exact this
    · rw [hsplit, segments_append_slash, segments_of_not_mem hs]
  · refine ⟨p.segments, segments_ne_nil p, .inl rfl, ?_, ?_⟩
    · rw [segments_append_slash, segments_of_not_mem hs]
    · rw [String.append_assoc]
      exact habs _

/-- To join a text without a slash adds its component, if it is one. -/
theorem components_join {p : Path} (hp : p.text ≠ "") {s : String} (hs : '/' ∉ s.toList) :
    (p.join ⟨s⟩).components = p.components ++ (component? s).toList := by
  obtain ⟨front, hne, hfront, hjoin, habs⟩ := exists_segments_join hp hs
  have hhead : (front ++ [s]).head? = p.segments.head? := by
    obtain ⟨t, ts, rfl⟩ := List.exists_cons_of_ne_nil hne
    rcases hfront with h | h <;> rw [h] <;> rfl
  have hsays : p.segments.filterMap component? = front.filterMap component? := by
    rcases hfront with h | h
    · rw [h]
    · simp [h, component?]
  rw [components, components, hjoin, habs, hhead, hsays, List.filterMap_append, List.append_assoc]
  congr 2

theorem components_of_not_mem {s : String} (hs : '/' ∉ s.toList) (hdot : s ≠ ".") :
    (mk s).components = (component? s).toList := by
  have hhead : [s].head? ≠ some "." := by simpa using hdot
  rw [components, segments_of_not_mem hs, isAbsolute_of_not_mem hs, if_neg Bool.false_ne_true,
    if_neg hhead]
  rfl

end Path

end Dbml
