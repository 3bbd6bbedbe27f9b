import TemplateFrontend.Proofs.Tree.Arena
import TemplateFrontend.Proofs.Tree.Forest
/-!
# Forests with a node replaced

A node deep inside a forest gets other lists, over nodes that the forest does not use elsewhere. The
table holds a forest again, with the same roots.

* `Forest.labels` — the nodes of a forest with their kinds;
* `Forest.exists_context` — around a node, a forest is the same whatever the node is and holds;
* `TemplateFile.Holds.append`, `TemplateFile.Holds.kept` — what is held side by side, and after a change
  elsewhere;
* `TemplateFile.Holds.graft` — the table with the node replaced.
-/

namespace TemplateFrontend

namespace Forest

/-- The nodes with their kinds, each before those inside it. -/
def labels (ts : Forest) : List (NodeId × NodeKind) := (subtrees ts).map fun t => (t.id, t.kind)

@[simp] theorem labels_nil : labels [] = [] := rfl

@[simp] theorem labels_cons (id : NodeId) (k : NodeKind) (bs : List Forest) (ts : Forest) :
    labels (.node id k bs :: ts) = (id, k) :: (bs.flatMap labels ++ labels ts) := by
  rw [labels, subtrees_cons, List.map_cons, List.map_append, List.map_flatMap]
  rfl

theorem map_fst_labels (ts : Forest) : (labels ts).map Prod.fst = ids ts := List.map_map

theorem flatMap_ids_eq (bs : List Forest) : bs.flatMap ids = (bs.flatMap labels).map Prod.fst := by
  rw [List.map_flatMap]
  exact List.flatMap_congr fun b _ => (map_fst_labels b).symm

/-- **Around a node.** The nodes of a forest are the node, those inside it and some others. The node
may become another one with other lists: there is a forest of it and the same others, under the same
roots. -/
theorem exists_context {ts : Forest} {id : NodeId} {k : NodeKind} {bs : List Forest}
    (hl : Labelled ts) (ht : .node id k bs ∈ subtrees ts) :
    ∃ others, (labels ts).Perm ((id, k) :: (bs.flatMap labels ++ others)) ∧
      ∀ (k' : NodeKind) (bs' : List Forest), k'.bodies = bs'.map roots →
        (∀ b ∈ bs', Labelled b) → ∃ us, roots us = roots ts ∧ Labelled us ∧
          (labels us).Perm ((id, k') :: (bs'.flatMap labels ++ others)) := by
  classical
  induction ts using Forest.induct with
  | nil => cases ht
  | cons i k₀ bs₀ ts₀ ihb iht =>
    obtain ⟨hk₀, hbs₀, hts₀⟩ := labelled_cons.mp hl
    rw [subtrees_cons] at ht
    obtain hself | hbelow := List.mem_cons.mp ht
    · -- the first root itself
      obtain ⟨rfl, rfl, rfl⟩ := NodeTree.node.inj hself
      refine ⟨labels ts₀, .of_eq (labels_cons ..), fun k' bs' hk' hbs' => ?_⟩
      exact ⟨.node id k' bs' :: ts₀, rfl, labelled_cons.mpr ⟨hk', hbs', hts₀⟩, .of_eq (labels_cons ..)⟩
    obtain hinside | htail := List.mem_append.mp hbelow
    · -- inside the first root: the list that the node is in is replaced by one with the same roots
      obtain ⟨b, hb, htb⟩ := List.mem_flatMap.mp hinside
      obtain ⟨others, hperm, hreplace⟩ := ihb b hb (hbs₀ b hb) htb
      obtain ⟨before, after, rfl⟩ := List.append_of_mem hb
      refine ⟨(i, k₀) :: (before.flatMap labels ++ others ++ after.flatMap labels ++ labels ts₀),
        ?_, fun k' bs' hk' hbs' => ?_⟩
      -- the labels of both lists, counted
      · refine List.perm_iff_count.mpr fun a => ?_
        have hcount := hperm.count_eq a
        simp only [labels_cons, List.flatMap_append, List.flatMap_cons, List.count_cons,
          List.count_append] at hcount ⊢
        omega
      · obtain ⟨c, hroots, hlc, hpermc⟩ := hreplace k' bs' hk' hbs'
        refine ⟨.node i k₀ (before ++ c :: after) :: ts₀, rfl, labelled_cons.mpr ⟨?_, ?_, hts₀⟩, ?_⟩
        · rw [hk₀, List.map_append, List.map_append, List.map_cons, List.map_cons, hroots]
        · intro d hd
          obtain hd | hd := List.mem_append.mp hd
          · exact hbs₀ d (List.mem_append_left _ hd)
          · obtain rfl | hd := List.mem_cons.mp hd
            · exact hlc
            · exact hbs₀ d (List.mem_append_right _ (List.mem_cons_of_mem _ hd))
        · refine List.perm_iff_count.mpr fun a => ?_
          have hcount := hpermc.count_eq a
          simp only [labels_cons, List.flatMap_append, List.flatMap_cons, List.count_cons,
            List.count_append] at hcount ⊢
          omega
    · -- behind the first root
      obtain ⟨others, hperm, hreplace⟩ := iht hts₀ htail
      refine ⟨(i, k₀) :: (bs₀.flatMap labels ++ others), ?_, fun k' bs' hk' hbs' => ?_⟩
      · refine List.perm_iff_count.mpr fun a => ?_
        have hcount := hperm.count_eq a
        simp only [labels_cons, List.count_cons, List.count_append] at hcount ⊢
        omega
      -- the first root stays, and what is behind it is replaced
      · obtain ⟨us, hroots, hlu, hpermu⟩ := hreplace k' bs' hk' hbs'
        refine ⟨.node i k₀ bs₀ :: us, ?_, labelled_cons.mpr ⟨hk₀, hbs₀, hlu⟩, ?_⟩
        · rw [roots_cons, roots_cons, hroots]
        · refine List.perm_iff_count.mpr fun a => ?_
          have hcount := hpermu.count_eq a
          simp only [labels_cons, List.count_cons, List.count_append] at hcount ⊢
          omega

end Forest

namespace TemplateFile

open Forest

section Parts

variable {f g : TemplateFile} {ts us : Forest}

theorem shows_iff_labels : f.Shows ts ↔ ∀ p ∈ labels ts, f.kind p.1 = p.2 := by
  rw [labels, List.forall_mem_map]
  rfl

/-- Two forests that share no nodes. -/
theorem Holds.append (h : f.Holds ts) (h' : f.Holds us) (hdisjoint : (ids ts).Disjoint (ids us)) :
    f.Holds (ts ++ us) where
  shows_nodes := shows_append.mpr ⟨h.shows_nodes, h'.shows_nodes⟩
  labelled := labelled_append.mpr ⟨h.labelled, h'.labelled⟩
  nodup := by
    rw [ids_append]
    exact List.nodup_append'.mpr ⟨h.nodup, h'.nodup, hdisjoint⟩
  lt_size x hx := by
    rw [ids_append] at hx
    exact (List.mem_append.mp hx).elim (h.lt_size x) (h'.lt_size x)

theorem Holds.left (h : f.Holds (ts ++ us)) : f.Holds ts :=
  h.of_sublist (by rw [subtrees_append]; exact List.sublist_append_left _ _)

theorem Holds.right (h : f.Holds (ts ++ us)) : f.Holds us :=
  h.of_sublist (by rw [subtrees_append]; exact List.sublist_append_right _ _)

theorem Holds.disjoint (h : f.Holds (ts ++ us)) : (ids ts).Disjoint (ids us) := by
  have hnodup := h.nodup
  rw [ids_append] at hnodup
  exact (List.nodup_append'.mp hnodup).2.2

/-- A change of other nodes. -/
theorem Holds.kept {S : List NodeId} (h : f.Holds ts) (hchange : ChangesOnly S f g)
    (hdisjoint : S.Disjoint (ids ts)) : g.Holds ts :=
  h.of_shows hchange.size_le (hchange.shows h.shows_nodes h.lt_size hdisjoint)

end Parts

/-- **A node replaced.** The node and what is inside it may change, and nothing else does. What is
inside it then was inside it before, or is new. -/
theorem Holds.graft {f g : TemplateFile} {ts : Forest} {id : NodeId} {k : NodeKind}
    {bs bs' : List Forest} (h : f.Holds ts) (ht : .node id k bs ∈ subtrees ts)
    (hchange : ChangesOnly (id :: bs.flatMap ids) f g) (hbodies : (g.kind id).bodies = bs'.map roots)
    (hinside : g.Holds bs'.flatten)
    (hfrom : ∀ x ∈ ids bs'.flatten, x ∈ bs.flatMap ids ∨ f.nodes.size ≤ x) :
    ∃ us, g.Holds us ∧ roots us = roots ts ∧ ∀ x ∈ ids us, x ∈ ids ts ∨ f.nodes.size ≤ x := by
  obtain ⟨others, hperm, hreplace⟩ := exists_context h.labelled ht
  have hparts : ∀ b ∈ bs', g.Holds b := by
    intro b hb
    refine hinside.of_sublist ?_
    rw [subtrees_flatten]
    exact sublist_flatMap subtrees hb
  obtain ⟨us, hroots, hlabelled, hperm'⟩ :=
    hreplace (g.kind id) bs' hbodies fun b hb => (hparts b hb).labelled
  -- the numbers before and after
  have hids : (ids ts).Perm (id :: (bs.flatMap ids ++ others.map Prod.fst)) := by
    rw [← map_fst_labels, flatMap_ids_eq, ← List.map_append]
    exact hperm.map Prod.fst
  have hids' : (ids us).Perm (id :: (ids bs'.flatten ++ others.map Prod.fst)) := by
    rw [← map_fst_labels, ids_flatten, flatMap_ids_eq, ← List.map_append]
    exact hperm'.map Prod.fst
  have hnodup := hids.nodup_iff.mp h.nodup
  have hlt : ∀ x ∈ id :: (bs.flatMap ids ++ others.map Prod.fst), x < f.nodes.size :=
    fun x hx => h.lt_size x (hids.mem_iff.mpr hx)
  obtain ⟨hself, hrest⟩ := List.nodup_cons.mp hnodup
  obtain ⟨-, hnodupOthers, hdisjoint⟩ := List.nodup_append'.mp hrest
  -- the other nodes are not touched by the edit
  have hltOthers : ∀ x ∈ others.map Prod.fst, x < f.nodes.size := fun x hx =>
    hlt x (List.mem_cons_of_mem _ (List.mem_append_right _ hx))
  have hidlt := hlt id List.mem_cons_self
  refine ⟨us, ⟨?_, hlabelled, ?_, ?_⟩, hroots, ?_⟩
  · -- the others are as they were
    refine shows_iff_labels.mpr fun p hp => ?_
    obtain rfl | hp := List.mem_cons.mp (hperm'.mem_iff.mp hp)
    · rfl
    obtain hp | hp := List.mem_append.mp hp
    · obtain ⟨b, hb, hp⟩ := List.mem_flatMap.mp hp
      exact shows_iff_labels.mp (hparts b hb).shows_nodes p hp
    · have hold : p.1 ∈ others.map Prod.fst := List.mem_map_of_mem hp
      rw [hchange.kind_eq p.1 (hltOthers _ hold) fun hmem => ?_]
      · refine shows_iff_labels.mp h.shows_nodes p (hperm.mem_iff.mpr ?_)
        exact List.mem_cons_of_mem _ (List.mem_append_right _ hp)
      · obtain heq | hmem := List.mem_cons.mp hmem
        · exact hself (heq ▸ List.mem_append_right _ hold)
        · exact hdisjoint hmem hold
  -- the numbers of the new lists are new, or were inside the node
  · refine hids'.nodup_iff.mpr (List.nodup_cons.mpr ⟨fun hmem => ?_, ?_⟩)
    · obtain hmem | hmem := List.mem_append.mp hmem
      · obtain hmem | hge := hfrom id hmem
        · exact hself (List.mem_append_left _ hmem)
        · exact Nat.not_lt.mpr hge hidlt
      · exact hself (List.mem_append_right _ hmem)
    · refine List.nodup_append'.mpr ⟨hinside.nodup, hnodupOthers, fun x hx hold => ?_⟩
      obtain hmem | hge := hfrom x hx
      · exact hdisjoint hmem hold
      · exact Nat.not_lt.mpr hge (hltOthers x hold)
  · intro x hx
    obtain rfl | hx := List.mem_cons.mp (hids'.mem_iff.mp hx)
    · exact Nat.lt_of_lt_of_le hidlt hchange.size_le
    obtain hx | hx := List.mem_append.mp hx
    · exact hinside.lt_size x hx
    · exact Nat.lt_of_lt_of_le (hltOthers x hx) hchange.size_le
  · intro x hx
    obtain rfl | hx := List.mem_cons.mp (hids'.mem_iff.mp hx)
    · exact .inl (hids.mem_iff.mpr List.mem_cons_self)
    obtain hx | hx := List.mem_append.mp hx
    · refine (hfrom x hx).imp_left fun hmem => hids.mem_iff.mpr ?_
      exact List.mem_cons_of_mem _ (List.mem_append_left _ hmem)
    · exact .inl (hids.mem_iff.mpr (List.mem_cons_of_mem _ (List.mem_append_right _ hx)))

end TemplateFile

end TemplateFrontend
