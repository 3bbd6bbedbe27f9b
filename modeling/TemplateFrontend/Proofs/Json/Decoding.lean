import TemplateFrontend.Json.Decoder
import TemplateFrontend.Proofs.Json.Text
import TemplateFrontend.Proofs.Readers
/-!
# Decoding what was encoded

`Decoder.Reads d v a` says that the decoder `d` takes the JSON value `v` to `a`, read as the text of
`v` is read. One lemma for each decoder says what it reads; an encoding is undone by putting them
together.

* `Decoder.Fills` — the entries of an object take a record, field by field, from what it starts out
  as to its value;
* `Decoder.reads_record` — a record is read from the object of such entries;
* `Decoder.exists_single_of_ok` — one decoder reads a record of one field where another one does, if
  it does so for the values.
-/

namespace TemplateFrontend

namespace Decoder

variable {ε γ α σ : Type}

/-- The decoder takes the value, read from its text, to `a`. -/
def Reads (d : Decoder ε α) (v : JsonValue) (a : α) : Prop := d v.scan = .ok a

/-! ### Values without parts -/

theorem reads_string (s : String) : Reads (string : Decoder ε String) (.string s) s := rfl

theorem reads_bool (b : Bool) : Reads (bool : Decoder ε Bool) (.bool b) b := rfl

theorem reads_natural {bound n : Nat} (hn : n < bound) :
    Reads (natural bound : Decoder ε Nat) (.number n) n := if_pos hn

theorem reads_refined {meaning : String → Except ε α} {s : String} {a : α}
    (h : meaning s = .ok a) : Reads (refined meaning) (.string s) a := by
  unfold Reads
  rw [refined, reads_string, ok_bind, h]
  rfl

theorem reads_word {meaning : String → Option α} {s : String} {a : α} (h : meaning s = some a) :
    Reads (word meaning : Decoder ε α) (.string s) a := by
  unfold Reads
  rw [JsonValue.scan, word, h]

/-! ### Lists and optional values -/

theorem reads_optional {value : Decoder ε α} {v : JsonValue} {a : α} (hv : v ≠ .null)
    (h : value.Reads v a) : (optional value).Reads v (some a) := by
  unfold Reads at h ⊢
  rw [optional, h]
  · rfl
  · cases v <;> first | exact absurd rfl hv | exact nofun

theorem mapM_scanItems {value : Decoder ε α} {encode : α → JsonValue} {as : List α}
    (h : ∀ a ∈ as, value.Reads (encode a) a) :
    (JsonValue.scanItems (as.map encode)).mapM value = .ok as := by
  induction as with
  | nil => rfl
  | cons a as ih =>
    have ha : value (encode a).scan = .ok a := h a List.mem_cons_self
    rw [List.map_cons, JsonValue.scanItems, List.mapM_cons, ha, ok_bind,
      ih fun b hb => h b (List.mem_cons_of_mem a hb)]
    rfl

theorem reads_list {value : Decoder ε α} {encode : α → JsonValue} {as : List α}
    (h : ∀ a ∈ as, value.Reads (encode a) a) :
    (list value).Reads (.array (as.map encode)) as := by
  change (do
    let values ← (JsonValue.scanItems (as.map encode)).mapM value
    unbroken none
    pure values) = _
  rw [mapM_scanItems h]
  rfl

theorem reads_pair {value : Decoder ε α} {v w : JsonValue} {a b : α} (ha : value.Reads v a)
    (hb : value.Reads w b) : (pair value).Reads (.array [v, w]) (a, b) := by
  change (do
    let a ← value v.scan
    let b ← value w.scan
    endOfItems [] none
    pure (a, b)) = _
  unfold Reads at ha hb
  rw [ha, hb]
  rfl

/-- Values that are read by one decoder are read by another one that reads what goes with them. -/
theorem exists_mapM_of_ok {β : Type} {value : Decoder ε α} {value' : Decoder ε β}
    {build : β → Except γ α}
    (h : ∀ v a, value v = .ok a → ∃ b, value' v = .ok b ∧ build b = .ok a) {vs : List JsonScan}
    {as : List α} (hvs : vs.mapM value = .ok as) :
    ∃ bs, vs.mapM value' = .ok bs ∧ bs.map build = as.map .ok := by
  induction vs generalizing as with
  | nil =>
    obtain rfl : [] = as := Except.ok.inj hvs
    exact ⟨[], rfl, rfl⟩
  | cons v vs ih =>
    rw [List.mapM_cons] at hvs
    obtain ⟨a, ha, hvs⟩ := exists_of_bind_ok hvs
    obtain ⟨as', has, hvs⟩ := exists_of_bind_ok hvs
    obtain rfl : a :: as' = as := Except.ok.inj hvs
    -- one item and then the others, decoded and built
    obtain ⟨b, hb, hbuild⟩ := h v a ha
    obtain ⟨bs, hbs, hbuilds⟩ := ih has
    refine ⟨b :: bs, ?_, ?_⟩
    · rw [List.mapM_cons, hb, ok_bind, hbs]
      rfl
    · rw [List.map_cons, List.map_cons, hbuild, hbuilds]

theorem exists_list_of_ok {β : Type} {value : Decoder ε α} {value' : Decoder ε β}
    {build : β → Except γ α}
    (h : ∀ v a, value v = .ok a → ∃ b, value' v = .ok b ∧ build b = .ok a) {v : JsonScan}
    {as : List α} (hv : list value v = .ok as) :
    ∃ bs, list value' v = .ok bs ∧ bs.map build = as.map .ok := by
  unfold list at hv
  split at hv
  · obtain ⟨as', has, hv⟩ := exists_of_bind_ok hv
    obtain ⟨⟨⟩, hfault, hv⟩ := exists_of_bind_ok hv
    obtain rfl : as' = as := Except.ok.inj hv
    obtain ⟨bs, hbs, hbuilds⟩ := exists_mapM_of_ok h has
    refine ⟨bs, ?_, hbuilds⟩
    rw [list, hbs, ok_bind, hfault]
    rfl
  · cases hv

/-! ### Records -/

/-- What an entry of an object makes of a record, the entry being for the field: a value that is there
is read, one that is not there is not required. -/
def Field.Takes (field : Field ε σ) (s : σ) (v : Option JsonValue) (s' : σ) : Prop :=
  match v with
  | some v => field.read s v.scan = .ok s'
  | none => field.required = false ∧ s' = s

theorem Field.takes_of {key : String} {required : Bool} {value : Decoder ε α} {set : σ → α → σ}
    {v : JsonValue} {a : α} (h : value.Reads v a) (s : σ) :
    (Field.of key required value set).Takes s (some v) (set s a) := by
  change (value v.scan).map (set s) = _
  unfold Reads at h
  rw [h]
  rfl

/-- An optional value is read, or left as it is if it is nothing. -/
theorem Field.takes_optional {key : String} {value : Decoder ε α} {set : σ → Option α → σ}
    {encode : α → JsonValue} {o : Option α} (hencode : ∀ a, encode a ≠ .null)
    (h : ∀ a ∈ o, value.Reads (encode a) a) {s : σ} (hs : set s none = s) :
    (Field.of key false (optional value) set).Takes s (o.map encode) (set s o) := by
  cases o with
  | none => exact ⟨rfl, hs⟩
  | some a => exact takes_of (reads_optional (hencode a) (h a rfl)) s

/-- The entries of an object, one for each field in their order, take the record from one state to
another. -/
inductive Fills : List (Field ε σ) → List (String × Option JsonValue) → σ → σ → Prop
  | nil (s : σ) : Fills [] [] s s
  | cons {field : Field ε σ} {fields : List (Field ε σ)} {v : Option JsonValue}
      {entries : List (String × Option JsonValue)} {s s₁ s' : σ} :
      field.Takes s v s₁ → Fills fields entries s₁ s' →
        Fills (field :: fields) ((field.key, v) :: entries) s s'

/-- The members of an object are put into the record, field by field. `seen` are the fields before
these. -/
theorem Fills.members {all fields : List (Field ε σ)} {entries : List (String × Option JsonValue)}
    {s s' : σ} (h : Fills fields entries s s') {seen : List String}
    (hfind : ∀ f ∈ fields, all.find? (·.key == f.key) = some f)
    (hseen : ∀ f ∈ fields, f.key ∉ seen) (hnodup : (fields.map (·.key)).Nodup) :
    ∃ seen', Decoder.members all seen s
        (JsonValue.scanMembers (entries.filterMap fun (key, v) => v.map (key, ·))) =
          .ok (seen', s') ∧
      seen ⊆ seen' ∧ ∀ f ∈ fields, f.required = true → f.key ∈ seen' := by
  induction h generalizing seen with
  | nil s => exact ⟨seen, rfl, fun _ hx => hx, fun _ hf => nomatch hf⟩
  | @cons field fields v entries s s₁ s' htakes _ ih =>
    obtain ⟨hfield, hfields⟩ := List.forall_mem_cons.mp hfind
    obtain ⟨hfresh, hfreshs⟩ := List.forall_mem_cons.mp hseen
    rw [List.map_cons, List.nodup_cons] at hnodup
    cases v with
    -- a member left out: the field is optional, and nothing is read
    | none =>
      obtain ⟨hoptional, rfl⟩ := htakes
      obtain ⟨seen', hmembers, hsub, hall⟩ := ih hfields hfreshs hnodup.2
      refine ⟨seen', hmembers, hsub, List.forall_mem_cons.mpr ⟨fun hrequired => ?_, hall⟩⟩
      rw [hoptional] at hrequired
      cases hrequired
    | some v =>
      have hread : field.read s v.scan = .ok s₁ := htakes
      -- from here on the key counts as seen, and no later field has it
      have hlater : ∀ f ∈ fields, f.key ∉ field.key :: seen := by
        intro f hf hmem
        obtain heq | hmem := List.mem_cons.mp hmem
        · exact hnodup.1 (heq ▸ List.mem_map_of_mem hf)
        · exact hfreshs f hf hmem
      obtain ⟨seen', hmembers, hsub, hall⟩ := ih hfields hlater hnodup.2
      refine ⟨seen', ?_, fun x hx => hsub (List.mem_cons_of_mem field.key hx),
        List.forall_mem_cons.mpr ⟨fun _ => hsub List.mem_cons_self, hall⟩⟩
      simp only [List.filterMap_cons, Option.map_some, JsonValue.scanMembers]
      rw [Decoder.members]
      -- the member is found by its key, is new and can be read
      simp only [hfield, if_neg hfresh, hread, ok_bind]
      exact hmembers

/-- A record is read from the object of its entries. -/
theorem reads_record {fields : List (Field ε σ)} {entries : List (String × Option JsonValue)}
    {s s' : σ} (h : Fills fields entries s s') (hnodup : (fields.map (·.key)).Nodup) :
    (record fields s).Reads (.ofMembers entries) s' := by
  have hfind : ∀ f ∈ fields, fields.find? (·.key == f.key) = some f := fun f hf =>
    find?_eq_some_of_nodup hnodup hf
  obtain ⟨seen, hmembers, -, hall⟩ := h.members hfind (fun _ _ => List.not_mem_nil) hnodup
  -- no required field is missing, since each has been seen
  have hcomplete : (fields.all fun f => !f.required || decide (f.key ∈ seen)) = true := by
    rw [List.all_eq_true]
    intro f hf
    cases hrequired : f.required with
    | false => rfl
    | true => simpa using hall f hf hrequired
  refine (congrArg (· >>= _) hmembers).trans ?_
  dsimp only [ok_bind]
  rw [hcomplete]
  rfl

/-! ### Records of one field -/

/-- A record that is the value of its only field. -/
def single (key : String) (value : Decoder ε α) (initial : α) : Decoder ε α :=
  record [.of key false value fun _ a => a] initial

section Single

variable {β : Type} {key : String} {value : Decoder ε α} {value' : Decoder ε β} {R : α → β → Prop}

theorem exists_read_of_ok (h : ∀ v a, value v = .ok a → ∃ b, value' v = .ok b ∧ R a b)
    {v : JsonScan} {a₀ a : α}
    (hv : (Field.of key false value fun _ a => a).read a₀ v = .ok a) (b₀ : β) :
    ∃ b, (Field.of key false value' fun _ b => b).read b₀ v = .ok b ∧ R a b := by
  change (value v).map (fun a => a) = _ at hv
  -- the field reads what its value reads and nothing else
  cases hvalue : value v with
  | error e =>
    rw [hvalue] at hv
    cases hv
  | ok a' =>
    rw [hvalue] at hv
    obtain rfl : a' = a := Except.ok.inj hv
    obtain ⟨b, hb, hR⟩ := h v a' hvalue
    refine ⟨b, ?_, hR⟩
    change (value' v).map (fun b => b) = _
    rw [hb]
    rfl

/-- Whoever reads what goes with each value reads it from the members of an object. -/
theorem exists_members_of_ok (h : ∀ v a, value v = .ok a → ∃ b, value' v = .ok b ∧ R a b)
    {ms : List (Except KeyFault String × JsonScan)} {seen seen' : List String} {a₀ a : α} {b₀ : β}
    (hms : members [.of key false value fun _ a => a] seen a₀ ms = .ok (seen', a)) (h₀ : R a₀ b₀) :
    ∃ b, members [.of key false value' fun _ b => b] seen b₀ ms = .ok (seen', b) ∧ R a b := by
  induction ms generalizing seen a₀ b₀ with
  | nil =>
    obtain ⟨rfl, rfl⟩ := Prod.mk.inj (Except.ok.inj hms)
    exact ⟨b₀, rfl, h₀⟩
  | cons m ms ih =>
    obtain ⟨k, v⟩ := m
    cases k with
    | error fault => cases hms
    | ok k =>
      rw [members] at hms ⊢
      by_cases hk : key == k
      -- the one key that is asked for, or a key that is skipped
      · have hfind {γ : Type} (d : Decoder ε γ) :
            [Field.of key false d fun _ a => a].find? (·.key == k) =
              some (Field.of key false d fun _ a => a) := List.find?_cons_of_pos hk
        simp only [hfind] at hms ⊢
        -- a key that comes twice is refused
        by_cases hseen : k ∈ seen
        · rw [if_pos hseen] at hms
          cases hms
        · rw [if_neg hseen] at hms ⊢
          obtain ⟨a₁, hread, hms⟩ := exists_of_bind_ok hms
          obtain ⟨b₁, hread', hR⟩ := exists_read_of_ok h hread b₀
          obtain ⟨b, hmembers, hb⟩ := ih hms hR
          exact ⟨b, by rw [hread']; exact hmembers, hb⟩
      · have hfind {γ : Type} (d : Decoder ε γ) :
            [Field.of key false d fun _ a => a].find? (·.key == k) = none :=
          List.find?_cons_of_neg hk
        simp only [hfind] at hms ⊢
        obtain ⟨u, hskip, hms⟩ := exists_of_bind_ok hms
        obtain ⟨b, hmembers, hb⟩ := ih hms h₀
        exact ⟨b, by rw [hskip]; exact hmembers, hb⟩

/-- Whoever reads what goes with each value reads what goes with a record of one field. -/
theorem exists_single_of_ok (h : ∀ v a, value v = .ok a → ∃ b, value' v = .ok b ∧ R a b)
    {v : JsonScan} {a₀ a : α} {b₀ : β} (hv : single key value a₀ v = .ok a) (h₀ : R a₀ b₀) :
    ∃ b, single key value' b₀ v = .ok b ∧ R a b := by
  unfold single record at hv ⊢
  -- an object by its members, a list by its one item
  split at hv
  · obtain ⟨⟨seen, a'⟩, hms, hv⟩ := exists_of_bind_ok hv
    obtain ⟨⟨⟩, hfault, hv⟩ := exists_of_bind_ok hv
    obtain rfl : a' = a := Except.ok.inj hv
    obtain ⟨b, hmembers, hb⟩ := exists_members_of_ok h hms h₀
    refine ⟨b, ?_, hb⟩
    dsimp only
    rw [hmembers, ok_bind]
    dsimp only
    rw [hfault]
    rfl
  · next vs fault =>
    cases vs with
    -- an empty list leaves the value it started with
    | nil =>
      obtain ⟨⟨⟩, hfault, hv⟩ := exists_of_bind_ok hv
      obtain rfl : a₀ = a := Except.ok.inj hv
      refine ⟨b₀, ?_, h₀⟩
      change (unbroken fault >>= fun _ => pure b₀) = _
      rw [hfault]
      rfl
    | cons w vs =>
      obtain ⟨a₁, hread, hv⟩ := exists_of_bind_ok hv
      obtain ⟨⟨⟩, hend, hv⟩ := exists_of_bind_ok hv
      obtain rfl : a₁ = a := Except.ok.inj hv
      obtain ⟨b, hread', hb⟩ := exists_read_of_ok h hread b₀
      refine ⟨b, ?_, hb⟩
      rw [items, hread', ok_bind, items, hend]
      rfl
  · cases hv

end Single

/-- A value is read from its text. -/
theorem run_render {d : Decoder ε α} {v : JsonValue} {a : α} (hv : v.Fits) (h : d.Reads v a) :
    d.run v.render = .ok a := by
  unfold Reads at h
  rw [run, JsonScan.ofText_render hv]
  dsimp only
  rw [h]
  rfl

end Decoder

end TemplateFrontend
