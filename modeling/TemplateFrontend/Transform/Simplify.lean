import TemplateFrontend.Transform.Folding
import TemplateFrontend.Tree.File
/-!
# Simplification

`TemplateFile.optimize` folds constants, takes the branches that constants choose, turns constant
prints into text and joins adjacent texts. A print of text that would have to be escaped stays a
print, so that escaping still reaches it.

* `prune_cond` — no condition that is left is a constant.
-/

namespace TemplateFrontend

/-- What becomes of a node in its list. -/
inductive Simplified where
  | kept
  | dropped
  | spliced (nodes : List NodeId)
  deriving DecidableEq, Repr

/-- Branches without those whose condition is a constant: false ones go, a true one is what happens
otherwise. -/
def prune : List Branch → Option (List NodeId) → List Branch × Option (List NodeId)
  | [], otherwise => ([], otherwise)
  | b :: bs, otherwise =>
    match b.cond.literal? with
    | some v => if v.isTrue then ([], some b.body) else prune bs otherwise
    | none =>
      let (bs, otherwise) := prune bs otherwise
      (b :: bs, otherwise)

theorem prune_cond {bs : List Branch} {otherwise : Option (List NodeId)} {b : Branch}
    (h : b ∈ (prune bs otherwise).1) : b ∈ bs ∧ b.cond.literal? = none := by
  induction bs with
  | nil => simp [prune] at h
  | cons c cs ih =>
    unfold prune at h
    split at h
    · split at h
      · simp at h
      · have := ih h
        exact ⟨List.mem_cons_of_mem _ this.1, this.2⟩
    -- a branch whose condition is open stays
    · next hc =>
      rcases List.mem_cons.1 h with rfl | h
      · exact ⟨List.mem_cons_self .., hc⟩
      · have := ih h
        exact ⟨List.mem_cons_of_mem _ this.1, this.2⟩

/-- Whether a text has characters that HTML writes in another way. -/
def needsEscaping (text : String) : Bool :=
  text.toList.any fun c => c == '<' || c == '>' || c == '&' || c == '"' || c == '\''

namespace TemplateFile

/-- The node simplified, with what becomes of it in its list. -/
def simplifyNode (f : TemplateFile) (id : NodeId) : TemplateFile × Simplified :=
  match f.kind id with
  | .conditional branches otherwise =>
    match prune branches otherwise with
    | ([], otherwise) => (f, .spliced (otherwise.getD []))
    | (branches, otherwise) => (f.setKind id (.conditional branches otherwise), .kept)
  | .print e [] =>
    match e.literal? with
    | none => (f, .kept)
    | some v =>
      let text := v.output
      -- An empty text would stand between texts that belong together.
      if needsEscaping text then (f, .kept)
      else if text = "" then (f, .dropped)
      else (f.setKind id (.text text), .kept)
  | _ => (f, .kept)

/-- The nodes of a list simplified, what is spliced in too; `fuel` bounds the number of nodes. -/
def simplifyNodes : (fuel : Nat) → TemplateFile → List NodeId → TemplateFile × List NodeId
  | _, f, [] => (f, [])
  | 0, f, ids => (f, ids)
  | fuel + 1, f, id :: ids =>
    match f.simplifyNode id with
    | (f, .kept) =>
      let (f, ids) := simplifyNodes fuel f ids
      (f, id :: ids)
    | (f, .dropped) => simplifyNodes fuel f ids
    -- What is spliced in is simplified in turn, in the list that it is now part of.
    | (f, .spliced nodes) => simplifyNodes fuel f (nodes ++ ids)

/-- A list of nodes simplified, with its adjacent texts joined. -/
def simplifyBody : BodyEdit := fun f ids =>
  let (f, ids) := simplifyNodes f.nodes.size f ids
  f.joinTexts ids

/-- The file with constants folded and its lists simplified. -/
def optimize (f : TemplateFile) : TemplateFile := (f.mapExprs Expr.fold).editBodies simplifyBody

end TemplateFile

end TemplateFrontend
