import TemplateFrontend.Proofs.Tree.Forest
import TemplateFrontend.Markup.Reader
/-!
# What the open frames hold

While a file is read, a node that is complete and not yet inside another one is held by exactly one
open frame, or is a template of the file. `Sound` is the invariant, and the moves of a reading keep it:

* `Sound.emit` — a new node, over what the frame that was closed for it held;
* `Sound.push`, `Sound.replace` — a new frame, and a frame that holds the same in another form;
* `Shaped` — the part that speaks of kinds: templates stand outermost, and the value of an attribute
  holds neither tags nor conditions.
-/

namespace TemplateFrontend

/-- Whether a node may stand in the value of an attribute. -/
def NodeKind.fitsValue : NodeKind → Bool
  | .template _ | .openTag _ _ _ | .closeTag _ | .conditional _ _ => false
  | _ => true

namespace Markup

open TemplateFile

/-! ### Nodes held by frames -/

/-- The nodes in the parts of a block that were read before the current one. -/
def Block.held : Block → List NodeId
  | .branch before _ | .otherwise before => before.flatMap (·.body)
  | _ => []

/-- The nodes that a frame holds. -/
def Frame.held : Frame → List NodeId
  | .block _ _ inner nodes => nodes ++ inner.held
  | .call _ c => (c.passed.filterMap (·.bound.body?)).flatten
  | .openTag _ _ attributes => (attributes.filterMap (·.value)).flatten
  | .attributeValue _ _ _ nodes => nodes

/-- The nodes that a frame holds for values of attributes. -/
def Frame.values : Frame → List NodeId
  | .openTag _ _ attributes => (attributes.filterMap (·.value)).flatten
  | .attributeValue _ _ _ nodes => nodes
  | _ => []

/-- Whether a frame may stand on others: a template on none, a tag or a condition on a block. -/
def Frame.Fits (below : List Frame) : Frame → Prop
  | .block _ _ (.template _ _) _ => below = []
  | .block _ _ (.branch _ _) _ | .block _ _ (.otherwise _) _ | .openTag _ _ _ =>
    ∃ opener html block nodes rest, below = .block opener html block nodes :: rest
  | _ => below ≠ []

/-- Every frame may stand on those below it. -/
def Stacked : List Frame → Prop
  | [] => True
  | frame :: below => frame.Fits below ∧ Stacked below

/-- Whether a node of this kind may be put into the innermost frame. -/
def FitsOn (k : NodeKind) : List Frame → Prop
  | [] => ∃ t, k = .template t
  | .attributeValue _ _ _ _ :: _ => k.fitsValue = true
  | _ => True

/-- The values of the attributes of a node hold what they may. -/
def ValuesFit (f : TemplateFile) (k : NodeKind) : Prop :=
  ∀ name attributes closed, k = .openTag name attributes closed →
    ∀ x ∈ (attributes.filterMap (·.value)).flatten, x < f.nodes.size ∧ (f.kind x).fitsValue = true

/-- The invariant on kinds. -/
structure Shaped (f : TemplateFile) (frames : List Frame) : Prop where
  templates : ∀ id ∈ f.templates, id < f.nodes.size ∧ ∃ t, f.kind id = .template t
  stacked : Stacked frames
  values : ∀ frame ∈ frames, ∀ id ∈ frame.values,
    id < f.nodes.size ∧ (f.kind id).fitsValue = true
  tags : ∀ id < f.nodes.size, ValuesFit f (f.kind id)

/-- **The invariant of reading a file.** -/
structure Sound (f : TemplateFile) (frames : List Frame) : Prop where
  held : f.HoldsBelow (frames.flatMap Frame.held ++ f.templates)
  shaped : Shaped f frames

/-! ### The innermost frame -/

section Innermost

variable {r : Reading} {frame : Frame} {below : List Frame}

theorem Reading.frames_pop (hfr : r.frames = frame :: below) : r.pop.frames = below := by
  rw [pop, hfr]
  rfl

theorem Reading.frames_replace (hfr : r.frames = frame :: below) (frame' : Frame) :
    (r.replace frame').frames = frame' :: below := by
  rw [replace, push, frames_pop hfr]

end Innermost

/-! ### Moves -/

section Moves

variable {f : TemplateFile} {frame frame' : Frame} {frames : List Frame} {k : NodeKind} {s : Span}

theorem Shaped.tail (h : Shaped f (frame :: frames)) : Shaped f frames :=
  ⟨h.templates, h.stacked.2, fun fr hfr => h.values fr (List.mem_cons_of_mem _ hfr), h.tags⟩

/-- A leaf of another kind takes in no nodes. -/
theorem valuesFit_of_ne {f : TemplateFile} (h : ∀ name as closed, k ≠ .openTag name as closed) :
    ValuesFit f k := fun name as closed hk => absurd hk (h name as closed)

/-- A new node leaves the others as they are. -/
theorem Shaped.add (h : Shaped f frames) (hvalues : ValuesFit f k) :
    Shaped (f.add k s).1 frames := by
  have hsize : (f.add k s).1.nodes.size = f.nodes.size + 1 := Array.size_push _
  have hkeep : ∀ x < f.nodes.size, (f.add k s).1.kind x = f.kind x := fun x hx =>
    kind_add_of_lt f k s hx
  -- what fitted into a value before still does, as its node is where it was
  have hfit : ∀ x, x < f.nodes.size ∧ (f.kind x).fitsValue = true →
      x < (f.add k s).1.nodes.size ∧ ((f.add k s).1.kind x).fitsValue = true := fun x hx => by
    rw [hsize, hkeep x hx.1]
    exact ⟨Nat.lt_succ_of_lt hx.1, hx.2⟩
  refine ⟨fun id hid => ?_, h.stacked, fun fr hfr id hid => hfit id (h.values fr hfr id hid),
    fun id hid => ?_⟩
  · obtain ⟨hlt, ht⟩ := h.templates id hid
    rw [hsize, hkeep id hlt]
    exact ⟨Nat.lt_succ_of_lt hlt, ht⟩
  · rw [hsize] at hid
    intro name as closed hk x hx
    -- an old tag, or the new node if it is one
    rcases Nat.lt_succ_iff_lt_or_eq.mp hid with hlt | rfl
    · rw [hkeep id hlt] at hk
      exact hfit x (h.tags id hlt name as closed hk x hx)
    · have hself : (f.add k s).1.kind f.nodes.size = k := kind_add_self f k s
      exact hfit x (hvalues name as closed (hself.symm.trans hk) x hx)

/-- **A new node.** It takes in what its lists name and goes where it belongs. -/
theorem Sound.emit {r : Reading}
    (hheld : r.file.HoldsBelow
      (k.bodies.flatten ++ (r.frames.flatMap Frame.held ++ r.file.templates)))
    (hshaped : Shaped r.file r.frames) (hfits : FitsOn k r.frames)
    (hvalues : ValuesFit r.file k) : Sound (r.emit k s).file (r.emit k s).frames := by
  obtain ⟨input, f, doc, strict, frames⟩ := r
  dsimp only at hheld hshaped hfits hvalues
  have hadd := hheld.add s
  have hnew := hshaped.add (s := s) hvalues
  have hsize : (f.add k s).1.nodes.size = f.nodes.size + 1 := Array.size_push _
  -- the new node is found under the next free number
  have hself : (f.add k s).1.kind f.nodes.size = k := kind_add_self f k s
  -- where the node goes: to the templates of the file, into a block or into a value
  match frames, hheld, hshaped, hfits, hadd, hnew with
  | [], hheld, hshaped, hfits, hadd, hnew =>
    refine ⟨?_, fun id hid => ?_, hnew.stacked, hnew.values, hnew.tags⟩
    · have hlast : (f.add k s).1.HoldsBelow (f.templates ++ [f.nodes.size]) :=
        hadd.perm (List.perm_append_singleton f.nodes.size f.templates).symm
      exact hlast.congr rfl
    · rcases List.mem_append.mp hid with hid | hid
      · exact hnew.templates id hid
      · obtain rfl := List.mem_singleton.mp hid
        obtain ⟨t, ht⟩ := hfits
        exact ⟨Nat.lt_of_lt_of_eq (Nat.lt_succ_self _) hsize.symm, t, hself.trans ht⟩
  | .block opener html block nodes :: below, hheld, hshaped, hfits, hadd, hnew =>
    refine ⟨hadd, hnew.templates, ?_, ?_, hnew.tags⟩
    · obtain ⟨hfit, hbelow⟩ := hnew.stacked
      cases block <;> exact ⟨hfit, hbelow⟩
    · exact List.forall_mem_cons.mpr (List.forall_mem_cons.mp hnew.values)
  | .attributeValue name start quote nodes :: below, hheld, hshaped, hfits, hadd, hnew =>
    refine ⟨hadd, hnew.templates, hnew.stacked, ?_, hnew.tags⟩
    obtain ⟨hvalue, hrest⟩ := List.forall_mem_cons.mp hnew.values
    refine List.forall_mem_cons.mpr ⟨fun id hid => ?_, hrest⟩
    rcases List.mem_cons.mp hid with rfl | hid
    · refine ⟨Nat.lt_of_lt_of_eq (Nat.lt_succ_self _) hsize.symm, ?_⟩
      exact (congrArg NodeKind.fitsValue hself).trans hfits
    · exact hvalue id hid
  -- a call and a tag hold no list, so the node is in none
  | .call opener c :: below, hheld, hshaped, hfits, hadd, hnew =>
    exact ⟨hadd.of_sublist (List.sublist_cons_self _ _), hnew⟩
  | .openTag start name as :: below, hheld, hshaped, hfits, hadd, hnew =>
    exact ⟨hadd.of_sublist (List.sublist_cons_self _ _), hnew⟩

/-- A new node without lists. -/
theorem Sound.emit_leaf {r : Reading} (h : Sound r.file r.frames) (hk : k.bodies = [])
    (hfits : FitsOn k r.frames) : Sound (r.emit k s).file (r.emit k s).frames := by
  refine Sound.emit (by rw [hk]; exact h.held) h.shaped hfits fun name as closed hopen x hx => ?_
  rw [hopen] at hk
  have hnil : (as.filterMap (·.value)) = [] := hk
  rw [hnil] at hx
  exact absurd hx List.not_mem_nil

/-- A new node over what the innermost frame held, which is closed. -/
theorem Sound.complete {r : Reading} (h : Sound r.file (frame :: frames))
    (hr : r.frames = frame :: frames) (hk : (k.bodies.flatten).Perm frame.held)
    (hfits : FitsOn k frames) (hvalues : ValuesFit r.file k) :
    Sound (r.pop.emit k s).file (r.pop.emit k s).frames := by
  have hpop := Reading.frames_pop hr
  refine Sound.emit ?_ (by rw [hpop]; exact h.shaped.tail) (by rwa [hpop]) hvalues
  rw [hpop]
  refine h.held.perm ?_
  rw [List.flatMap_cons, List.append_assoc]
  exact hk.symm.append_right _

/-- A new frame that holds nothing yet. -/
theorem Sound.push (h : Sound f frames) (hheld : frame.held = []) (hvalues : frame.values = [])
    (hfits : frame.Fits frames) : Sound f (frame :: frames) := by
  refine ⟨?_, h.shaped.templates, ⟨hfits, h.shaped.stacked⟩, ?_, h.shaped.tags⟩
  · rw [List.flatMap_cons, hheld]
    exact h.held
  · refine List.forall_mem_cons.mpr ⟨fun id hid => ?_, h.shaped.values⟩
    rw [hvalues] at hid
    exact absurd hid List.not_mem_nil

/-- A frame that holds the same in another form. -/
theorem Sound.replace (h : Sound f (frame :: frames)) (hheld : frame.held.Perm frame'.held)
    (hvalues : frame'.values ⊆ frame.values) (hfits : frame.Fits frames → frame'.Fits frames) :
    Sound f (frame' :: frames) := by
  obtain ⟨hvalue, hrest⟩ := List.forall_mem_cons.mp h.shaped.values
  refine ⟨?_, h.shaped.templates, ⟨hfits h.shaped.stacked.1, h.shaped.stacked.2⟩,
    List.forall_mem_cons.mpr ⟨fun id hid => hvalue id (hvalues hid), hrest⟩, h.shaped.tags⟩
  refine h.held.perm ?_
  rw [List.flatMap_cons, List.flatMap_cons]
  exact (hheld.append_right _).append_right _

/-- The innermost frame of a state in another form. -/
theorem Sound.reframe {r : Reading} (h : Sound r.file r.frames) (hr : r.frames = frame :: frames)
    (hheld : frame.held.Perm frame'.held) (hvalues : frame'.values ⊆ frame.values)
    (hfits : frame.Fits frames → frame'.Fits frames) :
    Sound (r.replace frame').file (r.replace frame').frames := by
  rw [Reading.frames_replace hr]
  rw [hr] at h
  exact h.replace hheld hvalues hfits

/-- A frame is dropped with what it holds. -/
theorem Sound.drop (h : Sound f (frame :: frames)) : Sound f frames := by
  refine ⟨h.held.of_sublist ?_, h.shaped.tail⟩
  rw [List.flatMap_cons, List.append_assoc]
  exact List.sublist_append_right _ _

/-- Only the table and the list of templates matter. -/
theorem Sound.congr {g : TemplateFile} (h : Sound f frames) (hnodes : g.nodes = f.nodes)
    (htemplates : g.templates = f.templates) : Sound g frames := by
  -- soundness is about nodes and templates, and both are the same
  have hkind : ∀ x, g.kind x = f.kind x := fun x => by rw [kind, kind, hnodes]
  refine ⟨?_, fun id hid => ?_, h.shaped.stacked, fun fr hfr id hid => ?_, fun id hid => ?_⟩
  · rw [htemplates]
    exact h.held.congr hnodes
  · rw [htemplates] at hid
    rw [hnodes, hkind]
    exact h.shaped.templates id hid
  · rw [hnodes, hkind]
    exact h.shaped.values fr hfr id hid
  · rw [hnodes] at hid
    intro name as closed hk x hx
    rw [hnodes, hkind]
    exact h.shaped.tags id hid name as closed ((hkind id).symm.trans hk) x hx

end Moves

end Markup

end TemplateFrontend
