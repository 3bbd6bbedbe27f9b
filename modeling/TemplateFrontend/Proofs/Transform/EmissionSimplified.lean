import TemplateFrontend.Proofs.Transform.Emission
import TemplateFrontend.Proofs.Transform.SimplifyVisits
import TemplateFrontend.Proofs.Transform.WrittenOut
import TemplateFrontend.Proofs.Markup.Steps
import Mathlib
/-!
# What a simplified template emits

Simplification takes constant branches, which emit what the command that they stand in emits. Text may
be repeated: `Piece.repeatsAfter` says when. Nothing else is other than before.

* `Forest.grows_simplify` — a forest and the forest simplified;
* `Forest.exists_emit_lt` — if text is repeated, some choices show it;
* `TemplateFile.emitted`, `TemplateFile.repeatsText` — what a template of a file emits, and whether
  simplification repeats text in it;
* `TemplateFile.Holds.emitted_optimize` — a template before and after `TemplateFile.optimize`;
* `parse_emitted_optimize` — the same for every source that is read without error.
-/

namespace TemplateFrontend

open Forest

/-! ### Branches -/

section Branches

variable {α β : Type} {holds : Nat → Bool}

/-- Which list is taken does not depend on what the lists hold. -/
theorem taken_map (g : α → β) (n : Nat) (bs : List Branch) (ls : List α) :
    taken holds n bs (ls.map g) = (taken holds n bs ls).map g := by
  induction bs generalizing n ls with
  | nil =>
    simp only [taken]
    -- no branch is left, so the last list is taken if there is one
    exact List.head?_map
  | cons b bs ih =>
    cases ls with
    | nil => rfl
    | cons l ls =>
      rw [List.map_cons, taken, taken]
      -- a decided condition settles which list is taken, any other one is asked for by its number
      cases b.decided? with
      | some v => cases v with
        | true => rfl
        | false => exact ih n ls
      | none =>
        dsimp only
        split
        · rfl
        · exact ih (n + 1) ls

/-- The list that is taken is one of the lists of the command. -/
theorem taken_mem {n : Nat} {bs : List Branch} {ls : List α} {l : α}
    (h : taken holds n bs ls = some l) : l ∈ ls := by
  induction bs generalizing n ls with
  | nil => exact List.mem_of_head? (by simpa only [taken] using h)
  | cons b bs ih =>
    -- the lists are gone through together with the branches, so that none may be left
    cases ls with
    | nil => exact absurd h (by simp [taken])
    | cons m ls =>
      rw [taken] at h
      cases hb : b.decided? with
      | some v =>
        rw [hb] at h
        cases v with
        | true => exact Option.some.inj h ▸ List.mem_cons_self
        | false => exact List.mem_cons_of_mem _ (ih h)
      | none =>
        rw [hb] at h
        dsimp only at h
        split at h
        · exact Option.some.inj h ▸ List.mem_cons_self
        · exact List.mem_cons_of_mem _ (ih h)

variable (holds) in
/-- **Pruning.** The live list that is taken is the list that was taken before. -/
theorem taken_prune {bs : List Branch} (hbs : ∀ b ∈ bs, b.decided? = b.constant?) (n : Nat)
    (o : Option (List NodeId)) (ls : List α) :
    taken holds n (prune bs o).1 (liveLists bs ls) = taken holds n bs ls := by
  induction bs generalizing n ls with
  | nil => cases ls <;> rfl
  | cons b bs ih =>
    obtain ⟨hb, hbs⟩ := List.forall_mem_cons.mp hbs
    cases ls with
    | nil =>
      -- without lists none is taken
      have hnone : ∀ x : α, taken holds n (prune (b :: bs) o).1 [] ≠ some x := fun x hx =>
        absurd (taken_mem hx) List.not_mem_nil
      rw [liveLists]
      cases h : taken holds n (prune (b :: bs) o).1 ([] : List α) with
      | none => rfl
      | some x => exact absurd h (hnone x)
      · intro _ _ _ _ _ h
        exact List.cons_ne_nil _ _ h.symm
    | cons l ls =>
      -- a branch that is decided is not live; if it is taken, nothing behind it is
      rw [prune_cons, liveLists, taken]
      cases hc : b.constant? with
      | some v =>
        rw [hb, hc]
        cases v with
        | true => rfl
        | false => exact ih hbs n ls
      | none =>
        dsimp only
        -- the branch stays, and its number is the same as before
        rw [taken, hb, hc]
        dsimp only
        rw [ih hbs (n + 1) ls]

/-- Of the lists of conditions that are no constants each is taken some time. -/
theorem exists_taken {bs : List Branch} (hbs : ∀ b ∈ bs, b.decided? = none) {ls : List α}
    (hlen : ls.length ≤ bs.length + 1) {l : α} (hl : l ∈ ls) (n : Nat) :
    ∃ i, n ≤ i ∧ taken (· == i) n bs ls = some l := by
  induction bs generalizing n ls with
  | nil =>
    -- behind the last branch there is one list at most, that of `{else}`
    obtain ⟨a, rfl⟩ : ∃ a, ls = [a] := by
      cases ls with
      | nil => exact absurd hl List.not_mem_nil
      | cons a as =>
        have has : as = [] := List.length_eq_zero_iff.mp (by simpa using hlen)
        exact ⟨a, by rw [has]⟩
    exact ⟨n, Nat.le_refl n, congrArg some (List.mem_singleton.mp hl).symm⟩
  | cons b bs ih =>
    obtain ⟨hb, hbs⟩ := List.forall_mem_cons.mp hbs
    cases ls with
    | nil => exact absurd hl List.not_mem_nil
    | cons a as =>
      rcases List.mem_cons.mp hl with rfl | hl
      -- the list of this branch: its condition is the one that holds
      · refine ⟨n, Nat.le_refl n, ?_⟩
        rw [taken, hb]
        simp
      -- a later list: the condition that holds has a higher number, so this one does not
      · obtain ⟨i, hi, ht⟩ := ih hbs (by simpa using hlen) hl (n + 1)
        refine ⟨i, by omega, ?_⟩
        rw [taken, hb]
        have hne : (n == i) = false := by simp; omega
        simpa [hne] using ht

end Branches

/-! ### Nodes -/

namespace NodeKind

/-- The expressions of the node are folded. -/
def Folded (k : NodeKind) : Prop := k.mapExprs Expr.fold = k

/-- What folding leaves of a node is folded. -/
theorem folded_mapExprs_fold (k : NodeKind) : (k.mapExprs Expr.fold).Folded := mapExprs_fold_fold k

/-- The condition of a folded branch is folded. -/
theorem Folded.branch {bs : List Branch} {o : Option (List NodeId)} (h : (conditional bs o).Folded)
    {b : Branch} (hb : b ∈ bs) : { b with cond := b.cond.fold } = b := by
  have hbs : (bs.map fun b => { b with cond := b.cond.fold }) = bs.map id :=
    (NodeKind.conditional.inj h).1.trans (List.map_id bs).symm
  exact List.map_inj_left.mp hbs b hb

/-- What is kept of a node is folded. -/
theorem Folded.of_kept {k k' : NodeKind} (hk : k.Folded) (h : k.verdict = .kept k') : k'.Folded := by
  rcases verdict_eq_kept h with ⟨rfl, -, -⟩ | ⟨bs, o, rfl, rfl⟩
  · exact hk
  · refine congrArg (NodeKind.conditional · (prune bs o).2) ?_
    exact (List.map_congr_left fun b hb => hk.branch (prune_cond hb).1).trans (List.map_id' _)

/-- In folded branches the conditions that are decided are the constant ones. -/
theorem Folded.decided? {bs : List Branch} {o : Option (List NodeId)}
    (h : (conditional bs o).Folded) : ∀ b ∈ bs, b.decided? = b.constant? := by
  intro b hb
  have hcond : b.cond.fold = b.cond := congrArg Branch.cond (h.branch hb)
  rw [Branch.decided?, Branch.constant?, hcond]

/-- The shell of a node does not depend on its lists. -/
theorem shell_withBodies {k : NodeKind} {ls : List (List NodeId)}
    (h : ls.length = k.bodies.length) : (k.withBodies ls).shell = k.shell := by
  rw [shell, mapExprs_withBodies, bare_withBodies, shell]
  rw [bodies_mapExprs, h]

/-- What a node emits follows from what its lists emit, not from the lists. -/
theorem emission_withBodies (c : Choices) (id : NodeId) {k : NodeKind} {ls : List (List NodeId)}
    (h : ls.length = k.bodies.length) (inner : List (List Nat → List Emitted)) (rounds : List Nat) :
    (k.withBodies ls).emission c id inner rounds = k.emission c id inner rounds := by
  -- lists stand in the node as numbers, but only its shell is emitted
  have hshell := shell_withBodies h
  cases k with
  | conditional bs o =>
    simp only [withBodies, emission, taken_congr (decided?_fillBranches bs ls)]
  | text | special | print => rfl
  | binding x b =>
    cases b with
    | value e => rfl
    | content kind body =>
      simp only [withBodies, emission] at hshell ⊢
      rw [hshell]
  | closeTag => rfl
  | template | loop | call | message | visualElement | openTag =>
    simp only [withBodies, emission] at hshell ⊢
    rw [hshell]

section Verdicts

variable (c : Choices) (id : NodeId) {k k' : NodeKind} (inner : List (List Nat → List Emitted))
  (rounds : List Nat)

/-- A node that becomes a text emits that text. -/
theorem emission_of_text {s : String} (hk : k.Folded) (h : k.verdict = .text s) :
    k.emission c id inner rounds = Emitted.chars s := by
  rcases verdict_eq_text h with rfl | ⟨e, v, rfl, hv, rfl⟩
  · rfl
  · have he : e.fold = e := (NodeKind.print.inj hk).1
    rw [emission, he, hv]

/-- A node that is dropped emits nothing. -/
theorem emission_of_dropped (hk : k.Folded) (h : k.verdict = .dropped) :
    k.emission c id inner rounds = [] := by
  obtain ⟨e, v, rfl, hv, hempty⟩ := verdict_eq_dropped h
  have he : e.fold = e := (NodeKind.print.inj hk).1
  rw [emission, he, hv]
  dsimp only
  rw [hempty, Emitted.chars_empty]

/-- A node that makes way for a list emits what that list does, and nothing if there is none. -/
theorem emission_of_spliced (hk : k.Folded) (h : k.verdict = .spliced) :
    k.emission c id inner rounds = ((k.live inner).head?.map (· rounds)).getD [] := by
  obtain ⟨bs, o, rfl, hp⟩ := verdict_eq_spliced h
  have htaken := taken_prune (c.holds id rounds) hk.decided? 0 o inner
  rw [hp] at htaken
  rw [emission, ← htaken, live, taken]
  cases (liveLists bs inner).head? <;> rfl

/-- A node that is kept emits from its live lists what it emitted from all of them. -/
theorem emission_of_kept (hk : k.Folded) (h : k.verdict = .kept k') :
    k'.emission c id (k.live inner) rounds = k.emission c id inner rounds := by
  rcases verdict_eq_kept h with ⟨rfl, -, hcond⟩ | ⟨bs, o, rfl, rfl⟩
  · have hlive : k'.live inner = inner := by
      unfold live
      split
      · next bs o => exact absurd rfl (hcond bs o)
      · rfl
    rw [hlive]
  · simp only [emission, live, taken_prune (c.holds id rounds) hk.decided? 0 o inner]

end Verdicts

section Inner

variable {α : Type} {c : Choices} {id : NodeId} {bs : List α}
  {f g : α → List Nat → List Emitted}

/-- **What a node emits grows** with what its lists emit. -/
theorem grows_emission {r : Bool} (k : NodeKind)
    (h : ∀ b ∈ bs, ∀ rounds, Grows r (f b rounds) (g b rounds)) (rounds : List Nat) :
    Grows r (k.emission c id (bs.map f) rounds) (k.emission c id (bs.map g) rounds) := by
  -- most nodes emit all of their lists, one after the other
  have hall : ∀ rounds, Grows r ((bs.map f).flatMap fun body => body rounds ++ [.leave])
      ((bs.map g).flatMap fun body => body rounds ++ [.leave]) := by
    intro rounds
    rw [List.flatMap_map, List.flatMap_map]
    exact Grows.flatMap fun b hb => (h b hb rounds).append (Grows.refl r _)
  have hshell : Grows r [Emitted.enter id k.shell] [.enter id k.shell] := Grows.refl r _
  cases k with
  | conditional branches o =>
    rw [emission, emission, taken_map, taken_map]
    -- the same branch is taken on both sides, since choices do not look at what lists emit
    cases ht : taken (c.holds id rounds) 0 branches bs with
    | none => exact Grows.refl r []
    | some b => exact h b (taken_mem ht) rounds
  | loop x e body => exact hshell.append (Grows.flatMap fun i _ => hall (i :: rounds))
  | text | special => exact Grows.refl r _
  | print e directives =>
    cases directives with
    | nil => exact Grows.refl r _
    | cons => exact hshell.append (hall rounds)
  | _ => exact hshell.append (hall rounds)

/-- Lists that are emitted one after the other are longer if one of them is and none is shorter. -/
theorem length_flatMap_lt {r : Bool} {f g : α → List Emitted} (h : ∀ b ∈ bs, Grows r (f b) (g b))
    {b : α} (hb : b ∈ bs) (hlt : (f b).length < (g b).length) :
    (bs.flatMap f).length < (bs.flatMap g).length := by
  obtain ⟨front, rest, rfl⟩ := List.append_of_mem hb
  have hfront := (Grows.flatMap fun a ha => h a (List.mem_append_left _ ha)).length_le
  have hrest := (Grows.flatMap fun a ha =>
    h a (List.mem_append_right _ (List.mem_cons_of_mem _ ha))).length_le
  simp only [List.flatMap_append, List.flatMap_cons, List.length_append]
  omega

/-- **A list shows.** Some choices for a node let it emit what one of its lists emits: if that list
emits more than before, so does the node. -/
theorem exists_emission_lt {k k' : NodeKind} (hk : k.Folded) (hv : k.verdict = .kept k')
    (hlen : bs.length = k'.bodies.length) {b : α} (hb : b ∈ bs) (id : NodeId) :
    ∃ (holds : List Nat → Nat → Bool) (times : List Nat → Nat),
      ∀ (c : Choices) (f g : α → List Nat → List Emitted) (r : Bool),
        c.holds id = holds → c.times id = times →
        (∀ b ∈ bs, ∀ rounds, Grows r (f b rounds) (g b rounds)) →
        (∀ rounds, (f b rounds).length < (g b rounds).length) →
        ∀ rounds, (k'.emission c id (bs.map f) rounds).length
          < (k'.emission c id (bs.map g) rounds).length := by
  -- a node that emits all of its lists emits more if one of them does
  have hall : ∀ (f g : α → List Nat → List Emitted) (r : Bool),
      (∀ b ∈ bs, ∀ rounds, Grows r (f b rounds) (g b rounds)) →
      (∀ rounds, (f b rounds).length < (g b rounds).length) → ∀ rounds,
      ((bs.map f).flatMap fun body => body rounds ++ [.leave]).length
        < ((bs.map g).flatMap fun body => body rounds ++ [.leave]).length := by
    intro f g r hgrows hlt rounds
    rw [List.flatMap_map, List.flatMap_map]
    refine length_flatMap_lt (fun b hb => (hgrows b hb rounds).append (Grows.refl r _)) hb ?_
    simpa using hlt rounds
  have hleaf : k'.bodies ≠ [] := fun hn => by
    rw [hn, List.length_nil, List.length_eq_zero_iff] at hlen
    exact List.not_mem_nil (hlen ▸ hb)
  cases k' with
  | conditional branches o =>
    -- what is left of a pruned command are conditions that are open, so that every branch can be taken
    have hvar : ∀ b ∈ branches, b.decided? = none := by
      intro b hb
      rw [(hk.of_kept hv).decided? b hb, Branch.constant?]
      rcases verdict_eq_kept hv with ⟨rfl, -, hcond⟩ | ⟨bs', o', -, heq⟩
      · exact absurd rfl (hcond branches o)
      · rw [(NodeKind.conditional.inj heq).1] at hb
        rw [(prune_cond hb).2]
        rfl
    have hle : bs.length ≤ branches.length + 1 := by
      rw [hlen]
      cases o <;> simp [bodies]
    obtain ⟨i, -, hi⟩ := exists_taken hvar hle hb 0
    refine ⟨fun _ n => n == i, fun _ => 0, fun c f g r hholds _ _ hlt rounds => ?_⟩
    rw [emission, emission, taken_map, taken_map, hholds, hi]
    exact hlt rounds
  | loop x e body =>
    refine ⟨fun _ _ => true, fun _ => 1, fun c f g r _ htimes hgrows hlt rounds => ?_⟩
    -- one round of the loop is enough
    have hround := hall f g r hgrows hlt (0 :: rounds)
    simpa [emission, htimes] using hround
  | text | special | print => exact absurd rfl hleaf
  | _ =>
    refine ⟨fun _ _ => true, fun _ => 0, fun c f g r _ _ hgrows hlt rounds => ?_⟩
    exact Nat.succ_lt_succ (hall f g r hgrows hlt rounds)

end Inner

end NodeKind

/-! ### Forests -/

/-- The choices with others for one node. -/
def Choices.update (c : Choices) (id : NodeId) (holds : List Nat → Nat → Bool)
    (times : List Nat → Nat) : Choices where
  holds := fun x => if x = id then holds else c.holds x
  times := fun x => if x = id then times else c.times x

namespace Forest

/-- All expressions of the forest are folded. -/
def Folded (ts : Forest) : Prop := ∀ t ∈ subtrees ts, t.kind.Folded

/-- A forest is folded if its first node, the lists inside it and the rest are. -/
theorem folded_cons {id : NodeId} {k : NodeKind} {bs : List Forest} {ts : Forest} :
    Folded (.node id k bs :: ts) ↔ k.Folded ∧ (∀ b ∈ bs, Folded b) ∧ Folded ts :=
  forall_subtrees_cons

/-- A forest is folded once folding was applied to each of its nodes. -/
theorem folded_mapKinds_fold (ts : Forest) : Folded (mapKinds (NodeKind.mapExprs Expr.fold) ts) := by
  induction ts using Forest.induct with
  | nil => exact fun _ h => absurd h List.not_mem_nil
  | cons id k bs ts ihb iht =>
    rw [mapKinds_cons, folded_cons]
    refine ⟨NodeKind.folded_mapExprs_fold k, fun b hb => ?_, iht⟩
    obtain ⟨b', hb', rfl⟩ := List.mem_map.mp hb
    exact ihb b' hb'

/-- Choices for a node that does not stand in the forest do not matter. -/
theorem emit_update {c : Choices} {id : NodeId} {holds : List Nat → Nat → Bool}
    {times : List Nat → Nat} {ts : Forest} (h : id ∉ ids ts) :
    emit (c.update id holds times) ts = emit c ts := by
  refine emit_congr fun x hx => ?_
  have hne : x ≠ id := fun he => h (he ▸ hx)
  exact ⟨if_neg hne, if_neg hne⟩

/-- The lists that stay in a simplified node are as many as its kind asks for. -/
theorem length_live_eq {k k' : NodeKind} {bs : List Forest} (hk : k.bodies = bs.map roots)
    (hv : k.verdict = .kept k') : (k.live bs).length = k'.bodies.length := by
  rw [NodeKind.bodies_of_kept hv, k.length_live]
  rw [hk, List.length_map]

/-- What a node that is kept emits before and after its lists were simplified. -/
theorem emission_kept (c : Choices) (id : NodeId) (rounds : List Nat) {k k' : NodeKind}
    {bs : List Forest} (hk : k.bodies = bs.map roots) (hf : k.Folded) (hv : k.verdict = .kept k') :
    k.emission c id (bs.map (emit c)) rounds
        = k'.emission c id ((k.live bs).map (emit c)) rounds ∧
      (k.pieces id (bs.map simplified)).flatMap (Piece.emit (NodeTree.emit c · rounds))
        = k'.emission c id ((k.live bs).map fun b => emit c (simplify b)) rounds := by
  have hlen := length_live_eq hk hv
  constructor
  · rw [← NodeKind.emission_of_kept c id _ rounds hf hv, k.live_map]
  · have hmap : ((k.live bs).map simplify).map (emit c)
        = (k.live bs).map fun b => emit c (simplify b) := List.map_map
    rw [pieces_of_kept hv, List.flatMap_singleton, Piece.emit, NodeTree.emit, emitAll_eq_map, hmap,
      NodeKind.emission_withBodies c id (by rw [List.length_map, List.length_map, hlen])]

/-- The pieces of a forest and what they end as. -/
theorem grows_pieces (c : Choices) (ts : Forest) (rounds : List Nat) :
    Grows (repeatsText ts) ((simplified ts).flatMap (Piece.emit (NodeTree.emit c · rounds)))
      (emit c (simplify ts) rounds) := by
  have hfinish := Piece.grows_finishAfter (NodeTree.emit c · rounds) false (simplified ts)
    fun _ _ => rfl
  rwa [if_neg Bool.false_ne_true, Emitted.chars_empty, List.nil_append, ← emit_eq_flatMap] at hfinish

/-- What is true of the pieces of a forest is true of the list that they end as, texts that are joined
included. -/
theorem grows_of_pieces {c : Choices} {ts : Forest} {rounds : List Nat}
    (h : Grows ((simplified ts).any Piece.repeatsBelow) (emit c ts rounds)
      ((simplified ts).flatMap (Piece.emit (NodeTree.emit c · rounds)))) :
    Grows (repeatsText ts) (emit c ts rounds) (emit c (simplify ts) rounds) := by
  exact (h.mono (Piece.repeatsAfter_of_any false _)).trans (grows_pieces c ts rounds)

/-- Up to the joining of texts: what a forest emits, its pieces emit. The induction is on the forest; the
lists inside a node that is kept are simplified already, hence `grows_of_pieces`. -/
theorem grows_simplified (c : Choices) {ts : Forest} (hl : Labelled ts) (hf : Folded ts)
    (rounds : List Nat) :
    Grows ((simplified ts).any Piece.repeatsBelow) (emit c ts rounds)
      ((simplified ts).flatMap (Piece.emit (NodeTree.emit c · rounds))) := by
  induction ts using Forest.induct generalizing rounds with
  | nil => exact Grows.refl _ _
  | cons id k bs ts ihb iht =>
    obtain ⟨hk, hbs, hts⟩ := labelled_cons.mp hl
    obtain ⟨hkf, hbsf, htsf⟩ := folded_cons.mp hf
    rw [simplified_cons, emit_cons, List.any_append, List.flatMap_append]
    -- the rest of the list is the same in every case, so the cases are those of the first node
    have hhead : Grows ((k.pieces id (bs.map simplified)).any Piece.repeatsBelow)
        (k.emission c id (bs.map (emit c)) rounds)
        ((k.pieces id (bs.map simplified)).flatMap (Piece.emit (NodeTree.emit c · rounds))) := ?_
    · exact (hhead.mono fun h => by rw [h, Bool.true_or]).append
        ((iht hts htsf rounds).mono fun h => by rw [h, Bool.or_true])
    cases hv : k.verdict with
    | text s =>
      rw [NodeKind.emission_of_text c id _ rounds hkf hv, pieces_of_text hv, List.flatMap_singleton]
      exact Grows.refl _ _
    | dropped =>
      rw [NodeKind.emission_of_dropped c id _ rounds hkf hv, pieces_of_dropped hv]
      exact Grows.refl _ _
    | spliced =>
      rw [NodeKind.emission_of_spliced c id _ rounds hkf hv, k.live_map]
      have hlen : bs.length = k.bodies.length := by rw [hk, List.length_map]
      rcases pieces_of_spliced id hv hlen with ⟨hlive, hp⟩ | ⟨b, hb, hlive, hp⟩
      · rw [hlive, hp]
        exact Grows.refl _ _
      -- the pieces of the list stand for the node, whether their texts will be joined again or not
      · rw [hlive, hp, Piece.flatMap_emit_echoAfter, Piece.any_repeatsBelow_echoAfter]
        exact ihb b hb (hbs b hb) (hbsf b hb) rounds
    | kept k' =>
      -- the node is emitted with the lists that are left, before and after
      obtain ⟨hbefore, hafter⟩ := emission_kept c id rounds hk hkf hv
      rw [hbefore, hafter]
      refine NodeKind.grows_emission k' (fun b hb rounds => ?_) rounds
      have hbmem := (k.live_sublist bs).subset hb
      refine (grows_of_pieces (ihb b hbmem (hbs b hbmem) (hbsf b hbmem) rounds)).mono fun hr => ?_
      rw [pieces_of_kept hv, List.any_cons, List.any_nil, Bool.or_false]
      exact List.any_eq_true.mpr ⟨b, hb, hr⟩

/-- **Simplification loses nothing.** What a forest emits, the simplified forest emits in the same
order, and nothing else unless it repeats text. -/
theorem grows_simplify (c : Choices) {ts : Forest} (hl : Labelled ts) (hf : Folded ts)
    (rounds : List Nat) :
    Grows (repeatsText ts) (emit c ts rounds) (emit c (simplify ts) rounds) :=
  grows_of_pieces (grows_simplified c hl hf rounds)

/-- Text is repeated in a list inside the forest, which `hbelow` is about, or else where the pieces of the
forest itself are joined. Then any choices show it. -/
theorem exists_emit_lt_of_pieces {ts : Forest} (hl : Labelled ts) (hf : Folded ts)
    (hbelow : (simplified ts).any Piece.repeatsBelow = true → ∃ c, ∀ rounds,
      (emit c ts rounds).length < ((simplified ts).flatMap (Piece.emit (NodeTree.emit c · rounds))).length)
    (h : repeatsText ts = true) :
    ∃ c, ∀ rounds, (emit c ts rounds).length < (emit c (simplify ts) rounds).length := by
  cases hany : (simplified ts).any Piece.repeatsBelow with
  | true =>
    obtain ⟨c, hc⟩ := hbelow hany
    exact ⟨c, fun rounds => Nat.lt_of_lt_of_le (hc rounds) (grows_pieces c ts rounds).length_le⟩
  | false =>
    -- the text is repeated at the top, where nothing has to be chosen
    obtain ⟨c⟩ : Nonempty Choices := ⟨⟨fun _ _ _ => true, fun _ _ => 0⟩⟩
    refine ⟨c, fun rounds => ?_⟩
    refine Nat.lt_of_le_of_lt (grows_simplified c hl hf rounds).length_le ?_
    have hlt := Piece.length_finishAfter_lt (NodeTree.emit c · rounds) false (simplified ts)
      (fun _ _ => rfl) h hany
    rwa [if_neg Bool.false_ne_true, Emitted.chars_empty, List.nil_append, ← emit_eq_flatMap] at hlt

/-- A choice under which a list inside a node emits more makes the node emit more: the node is asked to
go through that list. -/
theorem exists_kept_lt {id : NodeId} {k k' : NodeKind} {bs : List Forest} {b : Forest} {c : Choices}
    (hl : Labelled [.node id k bs]) (hf : Folded [.node id k bs]) (hid : id ∉ bs.flatMap ids)
    (hv : k.verdict = .kept k') (hb : b ∈ k.live bs)
    (hc : ∀ rounds, (emit c b rounds).length < (emit c (simplify b) rounds).length) :
    ∃ c', ∀ rounds, (k.emission c' id (bs.map (emit c')) rounds).length
      < ((k.pieces id (bs.map simplified)).flatMap (Piece.emit (NodeTree.emit c' · rounds))).length := by
  obtain ⟨hk, hbs, -⟩ := labelled_cons.mp hl
  obtain ⟨hkf, hbsf, -⟩ := folded_cons.mp hf
  have hbmem := (k.live_sublist bs).subset hb
  -- choices for the node under which the list is emitted at all
  obtain ⟨holds, times, hchoice⟩ := NodeKind.exists_emission_lt hkf hv (length_live_eq hk hv) hb id
  obtain ⟨c', hc'⟩ : ∃ c', c' = c.update id holds times := ⟨_, rfl⟩
  -- the choices for the node itself do not matter inside the list
  have hbid : id ∉ ids b := fun hm => hid (List.mem_flatMap.mpr ⟨b, hbmem, hm⟩)
  have hsid : id ∉ ids (simplify b) := fun hm =>
    hbid ((ids_simplify (hbs b hbmem)).subset hm)
  have hlt : ∀ rounds, (emit c' b rounds).length < (emit c' (simplify b) rounds).length := by
    intro rounds
    rw [hc', emit_update hbid, emit_update hsid]
    exact hc rounds
  refine ⟨c', fun rounds => ?_⟩
  obtain ⟨hbefore, hafter⟩ := emission_kept c' id rounds hk hkf hv
  rw [hbefore, hafter]
  refine hchoice c' _ _ true (by rw [hc']; exact if_pos rfl) (by rw [hc']; exact if_pos rfl)
    (fun a ha rounds => ?_) hlt rounds
  have hamem := (k.live_sublist bs).subset ha
  exact (grows_simplify c' (hbs a hamem) (hbsf a hamem) rounds).mono fun _ => rfl

/-- A node emits more if a list inside it does that repeats text. -/
theorem exists_node_lt {id : NodeId} {k : NodeKind} {bs : List Forest}
    (hl : Labelled [.node id k bs]) (hf : Folded [.node id k bs]) (hid : id ∉ bs.flatMap ids)
    (hbelow : ∀ b ∈ bs, (simplified b).any Piece.repeatsBelow = true → ∃ c, ∀ rounds,
      (emit c b rounds).length < ((simplified b).flatMap (Piece.emit (NodeTree.emit c · rounds))).length)
    (h : (k.pieces id (bs.map simplified)).any Piece.repeatsBelow = true) :
    ∃ c, ∀ rounds, (k.emission c id (bs.map (emit c)) rounds).length
      < ((k.pieces id (bs.map simplified)).flatMap (Piece.emit (NodeTree.emit c · rounds))).length := by
  obtain ⟨hk, hbs, -⟩ := labelled_cons.mp hl
  obtain ⟨hkf, hbsf, -⟩ := folded_cons.mp hf
  cases hv : k.verdict with
  | text s =>
    rw [pieces_of_text hv] at h
    exact absurd h (by simp [Piece.repeatsBelow])
  | dropped =>
    rw [pieces_of_dropped hv] at h
    exact absurd h (by simp)
  | spliced =>
    have hlen : bs.length = k.bodies.length := by rw [hk, List.length_map]
    -- without a list in its place the node has no pieces that could repeat anything
    rcases pieces_of_spliced id hv hlen with ⟨-, hp⟩ | ⟨b, hb, hlive, hp⟩
    · rw [hp] at h
      exact absurd h (by simp)
    · rw [hp, Piece.any_repeatsBelow_echoAfter] at h
      obtain ⟨c, hc⟩ := hbelow b hb h
      refine ⟨c, fun rounds => ?_⟩
      rw [NodeKind.emission_of_spliced c id _ rounds hkf hv, k.live_map, hlive, hp,
        Piece.flatMap_emit_echoAfter]
      exact hc rounds
  | kept k' =>
    rw [pieces_of_kept hv, List.any_cons, List.any_nil, Bool.or_false] at h
    obtain ⟨b, hb, hr⟩ := List.any_eq_true.mp h
    have hbmem := (k.live_sublist bs).subset hb
    -- first choices for the list, then the node is made to emit it
    obtain ⟨c, hc⟩ := exists_emit_lt_of_pieces (hbs b hbmem) (hbsf b hbmem) (hbelow b hbmem) hr
    exact exists_kept_lt hl hf hid hv hb hc

/-- If a list somewhere in the forest repeats text, some choices show it. The choices are made for one node
at a time, which is why no node may stand in the forest twice. -/
theorem exists_pieces_lt {ts : Forest} (hl : Labelled ts) (hf : Folded ts) (hn : (ids ts).Nodup)
    (h : (simplified ts).any Piece.repeatsBelow = true) :
    ∃ c, ∀ rounds,
      (emit c ts rounds).length < ((simplified ts).flatMap (Piece.emit (NodeTree.emit c · rounds))).length := by
  induction ts using Forest.induct with
  | nil => exact absurd h (by simp)
  | cons id k bs ts ihb iht =>
    obtain ⟨-, hbs, hts⟩ := labelled_cons.mp hl
    obtain ⟨hkf, hbsf, htsf⟩ := folded_cons.mp hf
    have hf' : Folded [.node id k bs] := folded_cons.mpr ⟨hkf, hbsf, fun _ h => absurd h List.not_mem_nil⟩
    rw [ids_cons, List.nodup_cons, List.mem_append, not_or] at hn
    obtain ⟨⟨hid, -⟩, hn⟩ := hn
    obtain ⟨hnb, hnt, -⟩ := List.nodup_append'.mp hn
    rw [simplified_cons, List.any_append, Bool.or_eq_true] at h
    simp only [simplified_cons, emit_cons, List.flatMap_append, List.length_append]
    -- what does not repeat text emits no less than before in any case
    rcases h with h | h
    · obtain ⟨c, hc⟩ := exists_node_lt hl.head hf' hid (fun b hb =>
        ihb b hb (hbs b hb) (hbsf b hb) ((List.nodup_flatMap.mp hnb).1 b hb)) h
      exact ⟨c, fun rounds =>
        Nat.add_lt_add_of_lt_of_le (hc rounds) (grows_simplified c hts htsf rounds).length_le⟩
    · obtain ⟨c, hc⟩ := iht hts htsf hnt h
      refine ⟨c, fun rounds => Nat.add_lt_add_of_le_of_lt ?_ (hc rounds)⟩
      -- the first node by itself
      have hgrows := grows_simplified c hl.head hf' rounds
      rw [simplified_cons, simplified_nil, List.append_nil, emit_cons, emit_nil, List.append_nil] at hgrows
      exact hgrows.length_le

/-- **Repeated text shows.** -/
theorem exists_emit_lt {ts : Forest} (hl : Labelled ts) (hf : Folded ts) (hn : (ids ts).Nodup)
    (h : repeatsText ts = true) :
    ∃ c, ∀ rounds, (emit c ts rounds).length < (emit c (simplify ts) rounds).length :=
  exists_emit_lt_of_pieces hl hf (exists_pieces_lt hl hf hn) h

end Forest

/-! ### Files -/

namespace TemplateFile

/-- What a template of the file emits. -/
def emitted (f : TemplateFile) (c : Choices) (id : NodeId) : List Emitted :=
  (f.forest (f.children id)).emit c []

/-- Whether simplification repeats text in a template of the file. -/
def repeatsText (f : TemplateFile) (id : NodeId) : Bool :=
  Forest.repeatsText (mapKinds (NodeKind.mapExprs Expr.fold) (f.forest (f.children id)))

/-- The templates of a simplified file, with what is inside them simplified. -/
theorem mem_simplify_mapKinds {ts : Forest} (htemplates : AreTemplates ts) {id : NodeId}
    {x : Template} {b : Forest} (hm : .node id (.template x) [b] ∈ ts) :
    ∃ k, .node id k [simplify (mapKinds (NodeKind.mapExprs Expr.fold) b)]
      ∈ simplify (mapKinds (NodeKind.mapExprs Expr.fold) ts) := by
  induction ts with
  | nil => exact absurd hm List.not_mem_nil
  | cons t ts ih =>
    obtain ⟨⟨y, hy⟩, hts⟩ := List.forall_mem_cons.mp htemplates
    obtain ⟨i, k, bs⟩ := t
    obtain rfl : k = .template y := hy
    -- a template is kept, so it is the first of what is left of its list
    rw [mapKinds_cons, NodeKind.mapExprs, simplify_cons_template]
    rcases List.mem_cons.mp hm with heq | hm
    · obtain ⟨rfl, -, rfl⟩ := NodeTree.node.inj heq
      exact ⟨_, List.mem_cons_self⟩
    · obtain ⟨k, hk⟩ := ih hts hm
      exact ⟨k, List.mem_cons_of_mem _ hk⟩

/-- **Emission before and after.** A template of the simplified file emits what it did before, unless
its text is repeated; then more is emitted, for some choices at least. -/
theorem Holds.emitted_optimize {f : TemplateFile} {ts : Forest} (h : f.Holds ts)
    (hroots : roots ts = f.templates) (htemplates : AreTemplates ts) {id : NodeId}
    (hid : id ∈ f.templates) :
    (∀ c, (f.emitted c id).Sublist (f.optimize.emitted c id)) ∧
      ((∀ c, f.optimize.emitted c id = f.emitted c id) ↔ f.repeatsText id = false) := by
  obtain ⟨x, b, hb⟩ := exists_template h.labelled htemplates (hroots ▸ hid)
  obtain ⟨k, hk⟩ := mem_simplify_mapKinds htemplates hb
  have hbefore : f.forest (f.children id) = b := h.forest_children hb
  have hafter : f.optimize.forest (f.optimize.children id)
      = simplify (mapKinds (NodeKind.mapExprs Expr.fold) b) :=
    (h.optimize hroots htemplates).1.forest_children hk
  -- the forest of the template, with its constants folded, is what is simplified
  have hl : Labelled (mapKinds (NodeKind.mapExprs Expr.fold) b) :=
    labelled_mapKinds (NodeKind.bodies_mapExprs Expr.fold) fun t ht =>
      h.labelled t (mem_subtrees_below hb List.mem_cons_self ht)
  have hn : (ids (mapKinds (NodeKind.mapExprs Expr.fold) b)).Nodup := by
    rw [ids_mapKinds]
    refine h.nodup.sublist (List.Sublist.map NodeTree.id ?_)
    obtain ⟨front, rest, rfl⟩ := List.append_of_mem hb
    rw [subtrees_append, subtrees_cons, List.flatMap_singleton]
    exact ((List.sublist_append_left _ _).trans (List.sublist_cons_self _ _)).trans
      (List.sublist_append_right _ _)
  have hf := folded_mapKinds_fold b
  -- folding changes no emission, so that only simplifying counts
  have hgrows : ∀ c, Grows (f.repeatsText id) (f.emitted c id) (f.optimize.emitted c id) := by
    intro c
    rw [emitted, emitted, repeatsText, hbefore, hafter, ← emit_mapKinds_fold c b]
    exact grows_simplify c hl hf []
  refine ⟨fun c => (hgrows c).sublist, fun hsame => ?_, fun hr c => (hgrows c).eq_of_not hr⟩
  -- if text is repeated, the two are of different length for some choices
  by_contra hr
  rw [repeatsText, hbefore, Bool.not_eq_false] at hr
  obtain ⟨c, hlt⟩ := exists_emit_lt hl hf hn hr
  have hlen := hlt []
  have heq := hsame c
  rw [emitted, emitted, hbefore, hafter, ← emit_mapKinds_fold c b] at heq
  rw [heq] at hlen
  exact Nat.lt_irrefl _ hlen

end TemplateFile

/-! ### Sources -/

section Sources

variable {source : SourceText} {f g : TemplateFile} {id : NodeId}

/-- **Emission of what was parsed.** A template of a source, with its special characters written out or
not, loses nothing by simplification, and emits the same for all choices if and only if no text of it
is repeated. -/
theorem parse_emitted_optimize (h : parse source = .ok f) (hg : g = f ∨ g = f.desugarSyntax)
    (hid : id ∈ g.templates) :
    (∀ c, (g.emitted c id).Sublist (g.optimize.emitted c id)) ∧
      ((∀ c, g.optimize.emitted c id = g.emitted c id) ↔ g.repeatsText id = false) := by
  obtain ⟨ts, hts, hroots, htemplates, -⟩ := parse_forest h
  rcases hg with rfl | rfl
  · exact hts.emitted_optimize hroots htemplates hid
  · obtain ⟨hout, htempl⟩ := hts.desugarSyntax hroots htemplates
    obtain ⟨htemplates', hroots'⟩ := areTemplates_writeOut htemplates
    exact hout.emitted_optimize ((hroots'.trans hroots).trans htempl.symm) htemplates' hid

end Sources

/-- A template in which a constant branch has two texts with a comment between them. -/
def commentedBranch : SourceText :=
  ⟨"a.st", "\x7bnamespace a\x7d\x7btemplate .t kind=\"text\"\x7d\x7bif true\x7da/* */b\x7b/if\x7d\x7b/template\x7d"⟩

/-- What the template emits before and after the pass, whatever is chosen. -/
theorem parse_commentedBranch : ∃ f, parse commentedBranch = .ok f ∧ f.templates = [3] ∧
    f.emitted ⟨fun _ _ _ => true, fun _ _ => 0⟩ 3 = Emitted.chars "ab" ∧
    f.optimize.emitted ⟨fun _ _ _ => true, fun _ _ => 0⟩ 3 = Emitted.chars "abb" := by
  have hrun : (parse commentedBranch).toOption.map (fun f => (f.templates,
      f.emitted ⟨fun _ _ _ => true, fun _ _ => 0⟩ 3,
      f.optimize.emitted ⟨fun _ _ _ => true, fun _ _ => 0⟩ 3))
      = some ([3], Emitted.chars "ab", Emitted.chars "abb") := by cbv
  obtain ⟨f, hp, hf⟩ := exists_of_toOption_map hrun
  obtain ⟨htemplates, hf⟩ := Prod.mk.inj hf
  obtain ⟨hbefore, hafter⟩ := Prod.mk.inj hf
  exact ⟨f, hp, htemplates, hbefore, hafter⟩

theorem parse_emitted_optimize_commentedBranch : ∃ f, parse commentedBranch = .ok f ∧
    3 ∈ f.templates ∧ (∀ c, (f.emitted c 3).Sublist (f.optimize.emitted c 3)) ∧
      ((∀ c, f.optimize.emitted c 3 = f.emitted c 3) ↔ f.repeatsText 3 = false) := by
  obtain ⟨f, hp, htemplates, -⟩ := parse_commentedBranch
  have hid : 3 ∈ f.templates := by rw [htemplates]; exact List.mem_singleton.mpr rfl
  exact ⟨f, hp, hid, parse_emitted_optimize hp (Or.inl rfl) hid⟩

/-- The text after the comment is emitted twice. -/
theorem optimize_repeats_commentedBranch : ∃ f c, parse commentedBranch = .ok f ∧ 3 ∈ f.templates ∧
    f.emitted c 3 = Emitted.chars "ab" ∧ f.optimize.emitted c 3 = Emitted.chars "abb" ∧
      f.optimize.emitted c 3 ≠ f.emitted c 3 := by
  obtain ⟨f, hp, htemplates, hbefore, hafter⟩ := parse_commentedBranch
  refine ⟨f, _, hp, by rw [htemplates]; exact List.mem_singleton.mpr rfl, hbefore, hafter, ?_⟩
  rw [hbefore, hafter]
  intro heq
  exact absurd (congrArg List.length heq) (by decide)

end TemplateFrontend
