import Stylesheet.Proofs.Json.Scalars
import Stylesheet.Proofs.Text.Pieces

/-!
# Reading what has been written

A value that is written as text is read as the same value, with its numbers rounded as numbers are.

- `elements?_join`, `enclosed?_join`: the readers of lists and of records, for any kind of element.
- `Json.rounded`: the value with rounded numbers. `rounded_eq_self` says where there is nothing to
  round.
- `Json.Unambiguous`: no record of the value gives a field twice.
- `decode?_render`: the round trip.
- `all_isPrintable_render`: no control character stands in the text of a value.
-/

namespace Stylesheet.Json

variable {rest : Text}

/-! ## Lists and records -/

theorem skip_cons {c : Char} (h : isSpace c = false) (t : Text) : skip (c :: t) = c :: t :=
  List.dropWhile_cons_of_neg (by simp [h])

variable {α β : Type}

/-- Elements that are joined by commas are read one after another. -/
theorem elements?_join {element : Reader β} {close : Char} {write : α → Text} {read : α → β}
    {items : List α} {count : Nat} (hclose : isSpace close = false) (hcomma : close ≠ ',')
    (hne : items ≠ []) (hcount : items.length ≤ count)
    (h : ∀ item ∈ items, ∀ c t, c = ',' ∨ c = close →
      element (write item ++ c :: t) = some (read item, c :: t)) (rest : Text) :
    elements? element close count (Text.join [','] (items.map write) ++ close :: rest) =
      some (items.map read, rest) := by
  -- the last element has the bracket behind it, each other one a comma
  induction items generalizing count with
  | nil => exact absurd rfl hne
  | cons item items ih =>
    obtain ⟨hitem, hitems⟩ := List.forall_mem_cons.mp h
    obtain ⟨count, rfl⟩ : ∃ k, count = k + 1 := by
      refine ⟨count - 1, ?_⟩
      rw [List.length_cons] at hcount
      omega
    rw [elements?]
    cases items with
    | nil =>
      rw [List.map_singleton, Text.join_singleton, hitem close rest (.inr rfl)]
      dsimp only [Option.bind_some]
      rw [skip_cons hclose]
      dsimp only
      rw [if_neg hcomma, if_pos rfl]
      rfl
    | cons second items =>
      have hrest := ih (List.cons_ne_nil second items) (Nat.le_of_succ_le_succ hcount) hitems
      rw [List.map_cons, Text.join_cons (by simp), List.append_assoc, List.append_assoc]
      rw [List.singleton_append, hitem ',' _ (.inl rfl)]
      dsimp only [Option.bind_some]
      rw [skip_cons rfl]
      dsimp only
      rw [if_pos rfl, hrest]
      rfl

/-- Elements between brackets are read, if the closing bracket does not look like one. -/
theorem enclosed?_join {element : Reader β} {close : Char} {write : α → Text} {read : α → β}
    {items : List α} {count : Nat} (hclose : isSpace close = false) (hcomma : close ≠ ',')
    (hcount : items.length ≤ count)
    (hstart : ∀ item ∈ items, ∃ c t, write item = c :: t ∧ isSpace c = false ∧ c ≠ close)
    (h : ∀ item ∈ items, ∀ c t, c = ',' ∨ c = close →
      element (write item ++ c :: t) = some (read item, c :: t)) (rest : Text) :
    enclosed? element close count (Text.join [','] (items.map write) ++ close :: rest) =
      some (items.map read, rest) := by
  unfold enclosed?
  cases items with
  | nil =>
    have hskip : skip (Text.join [','] (([] : List α).map write) ++ close :: rest) = close :: rest :=
      skip_cons hclose rest
    rw [hskip]
    exact if_pos rfl
  | cons item items =>
    -- the first character behind the opening bracket tells that the brackets are not empty
    obtain ⟨c, t, hitem, hc, hne⟩ := hstart item List.mem_cons_self
    obtain ⟨behind, hjoin⟩ : write item <+: Text.join [','] ((item :: items).map write) :=
      Text.isPrefix_join _ _ _
    have hskip : skip (Text.join [','] ((item :: items).map write) ++ close :: rest) =
        c :: (t ++ behind ++ close :: rest) := by
      rw [← hjoin, hitem]
      exact skip_cons hc _
    rw [hskip, if_neg (by simpa using hne)]
    exact elements?_join hclose hcomma (List.cons_ne_nil item items) hcount h rest

/-! ## Rounded numbers -/

mutual

/-- The value with its numbers rounded to 53 significant bits. -/
def rounded : Json → Json
  | .null => .null
  | .bool value => .bool value
  | .number n => .number (Number.round n)
  | .text t => .text t
  | .list items => .list (roundedItems items)
  | .record fields => .record (roundedFields fields)

/-- The items of a list with their numbers rounded. -/
def roundedItems : List Json → List Json
  | [] => []
  | item :: items => rounded item :: roundedItems items

/-- The fields of a record with the numbers of their values rounded. -/
def roundedFields : List (Text × Json) → List (Text × Json)
  | [] => []
  | (name, value) :: fields => (name, rounded value) :: roundedFields fields

end

theorem roundedItems_eq_map (items : List Json) : roundedItems items = items.map rounded := by
  induction items with
  | nil => rfl
  | cons item items ih => rw [roundedItems, ih, List.map_cons]

theorem roundedFields_eq_map (fields : List (Text × Json)) :
    roundedFields fields = fields.map fun field => (field.1, field.2.rounded) := by
  induction fields with
  | nil => rfl
  | cons field fields ih => rw [roundedFields, ih, List.map_cons]

mutual

/-- The numbers in a value. -/
def numbers : Json → List Int
  | .number n => [n]
  | .list items => itemNumbers items
  | .record fields => fieldNumbers fields
  | .null | .bool _ | .text _ => []

/-- The numbers in the items of a list. -/
def itemNumbers : List Json → List Int
  | [] => []
  | item :: items => numbers item ++ itemNumbers items

/-- The numbers in the values of fields. -/
def fieldNumbers : List (Text × Json) → List Int
  | [] => []
  | (_, value) :: fields => numbers value ++ fieldNumbers fields

end

mutual

/-- Rounding leaves a value alone whose numbers have no more than 53 significant bits. -/
theorem rounded_eq_self : ∀ j : Json, (∀ n ∈ numbers j, Number.round n = n) → rounded j = j
  | .null, _ => rfl
  | .bool _, _ => rfl
  | .number n, h => congrArg Json.number (h n (List.mem_singleton.mpr rfl))
  | .text _, _ => rfl
  | .list items, h => congrArg Json.list (roundedItems_eq_self items h)
  | .record fields, h => congrArg Json.record (roundedFields_eq_self fields h)

/-- Rounding changes nothing in a list whose numbers are rounded. -/
theorem roundedItems_eq_self : ∀ items : List Json,
    (∀ n ∈ itemNumbers items, Number.round n = n) → roundedItems items = items
  | [], _ => rfl
  | item :: items, h => by
    obtain ⟨hitem, hitems⟩ := List.forall_mem_append.mp h
    rw [roundedItems, rounded_eq_self item hitem, roundedItems_eq_self items hitems]

theorem roundedFields_eq_self : ∀ fields : List (Text × Json),
    (∀ n ∈ fieldNumbers fields, Number.round n = n) → roundedFields fields = fields
  | [], _ => rfl
  | (name, value) :: fields, h => by
    obtain ⟨hvalue, hfields⟩ := List.forall_mem_append.mp h
    rw [roundedFields, rounded_eq_self value hvalue, roundedFields_eq_self fields hfields]

end

/-- No record of the value gives a field twice. -/
inductive Unambiguous : Json → Prop where
  | null : Unambiguous .null
  | bool (value : Bool) : Unambiguous (.bool value)
  | number (n : Int) : Unambiguous (.number n)
  | text (t : Text) : Unambiguous (.text t)
  | list {items : List Json} (hitems : ∀ item ∈ items, Unambiguous item) : Unambiguous (.list items)
  | record {fields : List (Text × Json)} (hnames : (fields.map Prod.fst).Nodup)
    (hfields : ∀ field ∈ fields, Unambiguous field.2) : Unambiguous (.record fields)

/-! ## Texts of values -/

theorem isSpace_of_isDigit {c : Char} (h : c.isDigit = true) : isSpace c = false := by
  refine Bool.eq_false_iff.mpr fun hspace => ?_
  simp only [isSpace, Bool.or_eq_true, beq_iff_eq] at hspace
  rcases hspace with ((rfl | rfl) | rfl) | rfl <;> exact absurd h (by decide)

/-- The text of a value starts neither with a blank nor with a closing bracket. -/
theorem render_eq_cons (j : Json) : ∃ c t, render j = c :: t ∧ isSpace c = false ∧ c ≠ ']' := by
  match j with
  | .null => exact ⟨_, _, rfl, rfl, by decide⟩
  | .bool true => exact ⟨_, _, rfl, rfl, by decide⟩
  | .bool false => exact ⟨_, _, rfl, rfl, by decide⟩
  | .number (.ofNat n) =>
    obtain ⟨c, t, hn, hc⟩ := ofNat_eq_cons n
    refine ⟨c, t, hn, isSpace_of_isDigit hc, ?_⟩
    rintro rfl
    exact absurd hc (by decide)
  | .number (.negSucc n) => exact ⟨_, _, rfl, rfl, by decide⟩
  | .text t => exact ⟨_, _, rfl, rfl, by decide⟩
  | .list items => exact ⟨_, _, rfl, rfl, by decide⟩
  | .record fields => exact ⟨_, _, rfl, rfl, by decide⟩

/-- Joined texts are as long as each of them. -/
theorem length_le_join {texts : List Text} {text : Text} (h : text ∈ texts) :
    text.length ≤ (Text.join [','] texts).length := by
  induction texts with
  | nil => exact absurd h List.not_mem_nil
  | cons first texts ih =>
    rcases List.mem_cons.mp h with rfl | h
    · exact (Text.isPrefix_join _ _ _).length_le
    · have hle := ih h
      rw [Text.join_cons (List.ne_nil_of_mem h), List.length_append, List.length_append]
      omega

/-- Between joined texts there are commas. -/
theorem length_le_length_join (texts : List Text) :
    texts.length ≤ (Text.join [','] texts).length + 1 := by
  induction texts with
  | nil => exact Nat.zero_le _
  | cons first texts ih =>
    cases texts with
    | nil => exact Nat.le_add_left 1 _
    | cons second texts =>
      rw [Text.join_cons (List.cons_ne_nil second texts), List.length_append, List.length_append]
      rw [List.length_cons, List.length_singleton]
      omega

/-! ## Reading values -/

/-- Behind an element comes a comma or a bracket, with which no number goes on. -/
theorem endsNumber_cons {c close : Char} (h : c = ',' ∨ c = close)
    (hclose : close = ']' ∨ close = '\x7d') (t : Text) : EndsNumber (c :: t) := by
  rintro d ⟨⟩
  rcases h with rfl | rfl
  · exact ⟨rfl, by decide, by decide, by decide⟩
  · rcases hclose with rfl | rfl
    · exact ⟨rfl, by decide, by decide, by decide⟩
    · exact ⟨rfl, by decide, by decide, by decide⟩

/-- A depth that is enough for elements between brackets is enough for each of them. -/
theorem fits_of_length_join {write : α → Text} {items : List α} {depth : Nat}
    (h : (Text.join [','] (items.map write)).length + 1 ≤ depth) :
    items.length ≤ depth ∧ ∀ item ∈ items, (write item).length ≤ depth := by
  constructor
  · have hcount := length_le_length_join (items.map write)
    rw [List.length_map] at hcount
    omega
  · intro item hitem
    have hlength := length_le_join (List.mem_map_of_mem (f := write) hitem)
    omega

variable {depth : Nat}

theorem value?_digit {c : Char} (hc : c.isDigit = true) (t : Text) :
    value? (depth + 1) (c :: t) = (magnitude? (c :: t)).map fun read => (.number read.1, read.2) := by
  have hne : ∀ d : Char, d.isDigit = false → c ≠ d := by
    rintro d hd rfl
    rw [hc] at hd
    cases hd
  rw [value?, skip_cons (isSpace_of_isDigit hc)]
  dsimp only
  -- a digit is no quote, no opening bracket of either kind and no sign
  rw [if_neg (hne _ rfl), if_neg (hne _ rfl), if_neg (hne _ rfl), if_neg (hne _ rfl), if_pos hc]

/-- A number is read back rounded, up to where it ends. -/
theorem value?_number (n : Int) (hrest : EndsNumber rest) :
    value? (depth + 1) (Text.ofInt n ++ rest) = some (.number (Number.round n), rest) := by
  match n with
  | .ofNat n =>
    obtain ⟨c, t, hn, hc⟩ := ofNat_eq_cons n
    have hread := magnitude?_ofNat n hrest
    show value? (depth + 1) (Text.ofNat n ++ rest) = _
    rw [hn] at hread ⊢
    rw [List.cons_append, value?_digit hc, ← List.cons_append, hread]
    rfl
  | .negSucc n =>
    show (magnitude? (Text.ofNat (n + 1) ++ rest)).map _ = _
    rw [magnitude?_ofNat (n + 1) hrest]
    rfl

/-- A quoted text is read back as it is, up to its closing quote. -/
theorem value?_quote (t rest : Text) :
    value? (depth + 1) (Text.quote t ++ rest) = some (.text t, rest) := by
  have hquote : Text.quote t ++ rest = '"' :: (t.flatMap Text.escaped ++ '"' :: rest) := by
    simp [Text.quote]
  rw [hquote]
  show (characters? (t.flatMap Text.escaped ++ '"' :: rest)).map _ = _
  rw [characters?_quote]
  rfl

/-- A field is read if its value is. -/
theorem field?_append {value : Reader Json} {j : Json} {t : Text} (name : Text)
    (h : value t = some (j, rest)) :
    field? value (Text.quote name ++ [':'] ++ t) = some ((name, j), rest) := by
  have hquote : Text.quote name ++ [':'] ++ t =
      '"' :: (name.flatMap Text.escaped ++ '"' :: ':' :: t) := by
    simp [Text.quote]
  rw [hquote]
  show (characters? (name.flatMap Text.escaped ++ '"' :: ':' :: t)).bind _ = _
  rw [characters?_quote]
  show (value t).map _ = _
  rw [h]
  rfl

/-- A list is read back if each of its items is, with what follows it. -/
theorem value?_list {items : List Json} (hdepth : (render (.list items)).length ≤ depth + 1)
    (h : ∀ item ∈ items, ∀ rest, (render item).length ≤ depth → EndsNumber rest →
      value? depth (render item ++ rest) = some (item.rounded, rest)) (rest : Text) :
    value? (depth + 1) (render (.list items) ++ rest) = some (.list (items.map rounded), rest) := by
  have hrender : render (.list items) = '[' :: (Text.join [','] (items.map render) ++ [']']) := by
    rw [render, renderItems_eq_map]
    rfl
  rw [hrender, List.length_cons, List.length_append, List.length_singleton] at hdepth
  obtain ⟨hcount, hlength⟩ := fits_of_length_join (Nat.le_of_succ_le_succ hdepth)
  have hread : enclosed? (value? depth) ']' depth (Text.join [','] (items.map render) ++ ']' :: rest) =
      some (items.map rounded, rest) := by
    refine enclosed?_join rfl (by decide) hcount (fun item _ => render_eq_cons item) ?_ rest
    intro item hitem c t hc
    exact h item hitem (c :: t) (hlength item hitem) (endsNumber_cons hc (.inl rfl) t)
  rw [hrender, List.cons_append, List.append_assoc]
  show (enclosed? (value? depth) ']' depth _).map _ = _
  rw [List.singleton_append, hread]
  rfl

/-- A record is read back if each of its fields is, and no name occurs twice. -/
theorem value?_record {fields : List (Text × Json)} (hnames : (fields.map Prod.fst).Nodup)
    (hdepth : (render (.record fields)).length ≤ depth + 1)
    (h : ∀ field ∈ fields, ∀ rest, (render field.2).length ≤ depth → EndsNumber rest →
      value? depth (render field.2 ++ rest) = some (field.2.rounded, rest)) (rest : Text) :
    value? (depth + 1) (render (.record fields) ++ rest) =
      some (.record (fields.map fun field => (field.1, field.2.rounded)), rest) := by
  let write := fun field : Text × Json => Text.quote field.1 ++ [':'] ++ render field.2
  have hrender : render (.record fields) =
      '\x7b' :: (Text.join [','] (fields.map write) ++ ['\x7d']) := by
    rw [render, renderFields_eq_map]
    rfl
  rw [hrender, List.length_cons, List.length_append, List.length_singleton] at hdepth
  obtain ⟨hcount, hlength⟩ := fits_of_length_join (Nat.le_of_succ_le_succ hdepth)
  have hread : enclosed? (field? (value? depth)) '\x7d' depth
      (Text.join [','] (fields.map write) ++ '\x7d' :: rest) =
        some (fields.map fun field => (field.1, field.2.rounded), rest) := by
    refine enclosed?_join rfl (by decide) hcount
      (fun field _ => ⟨'"', _, rfl, rfl, by decide⟩) ?_ rest
    intro field hfield c t hc
    have hvalue : (render field.2).length ≤ depth := by
      have hle := hlength field hfield
      rw [List.length_append] at hle
      omega
    show field? (value? depth) (Text.quote field.1 ++ [':'] ++ render field.2 ++ c :: t) = _
    rw [List.append_assoc]
    exact field?_append field.1 (h field hfield (c :: t) hvalue (endsNumber_cons hc (.inr rfl) t))
  -- the names are those that were written, so none is given twice
  have hrecord : record? (fields.map fun field => (field.1, field.2.rounded)) =
      some (.record (fields.map fun field => (field.1, field.2.rounded))) := by
    refine if_pos ?_
    rw [List.map_map]
    exact hnames
  rw [hrender, List.cons_append, List.append_assoc]
  show (enclosed? (field? (value? depth)) '\x7d' depth _).bind _ = _
  rw [List.singleton_append, hread]
  dsimp only [Option.bind_some]
  rw [hrecord]
  rfl

/-- A value is read from its text, with its numbers rounded. -/
theorem value?_render {j : Json} (h : j.Unambiguous) :
    ∀ {depth : Nat} (rest : Text), (render j).length ≤ depth → EndsNumber rest →
      value? depth (render j ++ rest) = some (j.rounded, rest) := by
  -- a text that is not empty leaves a depth to read it
  have hsucc : ∀ {j : Json} {depth : Nat}, (render j).length ≤ depth → ∃ d, depth = d + 1 := by
    intro j depth hdepth
    obtain ⟨c, t, hj, -⟩ := render_eq_cons j
    rw [hj, List.length_cons] at hdepth
    exact ⟨depth - 1, by omega⟩
  induction h with
  | null =>
    intro depth rest hdepth _
    obtain ⟨depth, rfl⟩ := hsucc hdepth
    rfl
  | bool value =>
    intro depth rest hdepth _
    obtain ⟨depth, rfl⟩ := hsucc hdepth
    cases value <;> rfl
  | number n =>
    intro depth rest hdepth hrest
    obtain ⟨depth, rfl⟩ := hsucc hdepth
    exact value?_number n hrest
  | text t =>
    intro depth rest hdepth _
    obtain ⟨depth, rfl⟩ := hsucc hdepth
    exact value?_quote t rest
  | list hitems ih =>
    intro depth rest hdepth _
    obtain ⟨depth, rfl⟩ := hsucc hdepth
    rw [value?_list hdepth (fun item hitem rest => ih item hitem rest) rest, rounded,
      roundedItems_eq_map]
  | record hnames hfields ih =>
    intro depth rest hdepth _
    obtain ⟨depth, rfl⟩ := hsucc hdepth
    rw [value?_record hnames hdepth (fun field hfield rest => ih field hfield rest) rest, rounded,
      roundedFields_eq_map]

/-- A text gives the value that it was written for. -/
theorem decode?_render {j : Json} (h : j.Unambiguous) : decode? (render j) = some j.rounded := by
  have hread := value?_render h [] (Nat.le_refl _) endsNumber_nil
  rw [List.append_nil] at hread
  unfold decode?
  rw [hread]
  rfl

/-! ## Control characters -/

theorem all_isPrintable_join {texts : List Text} (h : ∀ text ∈ texts, text.all isPrintable = true) :
    (Text.join [','] texts).all isPrintable = true := by
  refine List.all_eq_true.mpr fun c hc => ?_
  rcases Text.mem_join hc with hcomma | ⟨text, htext, hc⟩
  · rw [List.mem_singleton.mp hcomma]
    rfl
  · exact List.all_eq_true.mp (h text htext) c hc

mutual

/-- No control character stands in the text of a value. -/
theorem all_isPrintable_render : ∀ j : Json, (render j).all isPrintable = true
  | .null => rfl
  | .bool true => rfl
  | .bool false => rfl
  | .number n => all_isPrintable_ofInt n
  | .text t => all_isPrintable_quote t
  | .list items => by
    have hitems := all_isPrintable_join (all_isPrintable_renderItems items)
    rw [render, List.all_append, List.all_append, hitems]
    rfl
  | .record fields => by
    have hfields := all_isPrintable_join (all_isPrintable_renderFields fields)
    rw [render, List.all_append, List.all_append, hfields]
    rfl

/-- No control character stands in the text of an item. -/
theorem all_isPrintable_renderItems : ∀ items : List Json,
    ∀ text ∈ renderItems items, text.all isPrintable = true
  | [] => fun _ h => absurd h List.not_mem_nil
  | item :: items =>
    List.forall_mem_cons.mpr ⟨all_isPrintable_render item, all_isPrintable_renderItems items⟩

theorem all_isPrintable_renderFields : ∀ fields : List (Text × Json),
    ∀ text ∈ renderFields fields, text.all isPrintable = true
  | [] => fun _ h => absurd h List.not_mem_nil
  | (name, value) :: fields => by
    refine List.forall_mem_cons.mpr ⟨?_, all_isPrintable_renderFields fields⟩
    rw [List.all_append, List.all_append, all_isPrintable_quote, all_isPrintable_render]
    rfl

end

end Stylesheet.Json
