import Mathlib
import FractalFormula.Toml.Reader

/-!
# Integers of TOML documents

An integer that is read from text fits into 64 bits with a sign, and nothing that happens to a
table afterwards makes another one: tables are only extended by values that were read, by headers
and by the tables of dotted keys. `parse?_fits` states this for the values that stand directly in
the table of a document, which are those that a program looks at by their keys.
-/

namespace FractalFormula.Toml

/-- If the value is an integer, it fits into 64 bits with a sign. -/
def Value.Fits (v : Value) : Prop :=
  ∀ n, v = .integer n → -0x8000000000000000 ≤ n ∧ n < 0x8000000000000000

/-- The integers that stand directly in the table fit. -/
def Table.Fits (t : Table) : Prop := ∀ key v, t.get? key = some v → v.Fits

/-- The values that stand directly among the entries fit. -/
def Entries.Fit (es : Entries) : Prop := ∀ key v, (key, Node.value v) ∈ es → v.Fits

/-! ### What is read -/

theorem fits_of_inRange? {m n : Int} (h : inRange? m = some n) : (Value.integer n).Fits := by
  intro k hk
  obtain rfl := Value.integer.inj hk
  rw [inRange?] at h
  split at h
  · next hrange =>
    obtain rfl := Option.some.inj h
    exact hrange
  · cases h

theorem fits_of_integer? {text : List Char} {n : Int} (h : integer? text = some n) :
    (Value.integer n).Fits := by
  rw [integer?.eq_def] at h
  split at h
  · obtain ⟨ds, -, h⟩ := Option.bind_eq_some_iff.mp h
    exact fits_of_inRange? h
  · obtain ⟨ds, -, h⟩ := Option.bind_eq_some_iff.mp h
    exact fits_of_inRange? h
  · obtain ⟨ds, -, h⟩ := Option.bind_eq_some_iff.mp h
    exact fits_of_inRange? h
  · obtain ⟨ds, -, h⟩ := Option.bind_eq_some_iff.mp h
    exact fits_of_inRange? h

theorem fits_of_scalar? {text : List Char} {v : Value} (h : scalar? text = some v) : v.Fits := by
  intro n hn
  subst hn
  simp only [scalar?] at h
  split_ifs at h
  · simp at h
  · simp at h
  · simp at h
  · split at h
    · next m hm =>
      obtain rfl := Value.integer.inj (Option.some.inj h)
      exact fits_of_integer? hm _ rfl
    · simp at h

theorem fits_of_bareScalar? {text rest : List Char} {v : Value}
    (h : bareScalar? text = some (v, rest)) : v.Fits := by
  have hmap {run after : List Char}
      (h : (scalar? run).map (fun v => (v, after)) = some (v, rest)) : v.Fits := by
    obtain ⟨w, hw, heq⟩ := Option.map_eq_some_iff.mp h
    obtain ⟨rfl, -⟩ := Prod.mk.inj heq
    exact fits_of_scalar? hw
  simp only [bareScalar?] at h
  split at h
  · split at h
    · split at h
      · split at h
        · exact hmap h
        · exact hmap h
      · exact hmap h
    · exact hmap h
  · exact hmap h

theorem fits_of_atom? {text rest : List Char} {v : Value} (h : atom? text = some (v, rest)) :
    v.Fits := by
  rw [atom?] at h
  split at h
  · obtain ⟨w, -, heq⟩ := Option.map_eq_some_iff.mp h
    obtain ⟨rfl, -⟩ := Prod.mk.inj heq
    exact nofun
  · exact fits_of_bareScalar? h

theorem fits_of_value? {nesting : Nat} {text rest : List Char} {v : Value}
    (h : value? nesting text = some (v, rest)) : v.Fits := by
  cases nesting with
  | zero => exact fits_of_atom? h
  | succ nesting =>
    simp only [value?] at h
    split at h
    · obtain ⟨w, -, heq⟩ := Option.map_eq_some_iff.mp h
      obtain ⟨rfl, -⟩ := Prod.mk.inj heq
      exact nofun
    · obtain ⟨w, -, heq⟩ := Option.map_eq_some_iff.mp h
      obtain ⟨rfl, -⟩ := Prod.mk.inj heq
      exact nofun
    · exact fits_of_atom? h

/-! ### Tables while they are read -/

namespace Entries

variable {es es' : Entries} {key : String}

theorem fit_nil : Fit [] := fun _ _ h => absurd h List.not_mem_nil

theorem Fit.put {node : Node} (h : es.Fit) (hnode : ∀ v, node = .value v → v.Fits) :
    (es.put key node).Fit := by
  induction es with
  | nil =>
    intro k v hv
    obtain ⟨-, rfl⟩ := Prod.mk.inj (List.mem_singleton.mp hv)
    exact hnode v rfl
  | cons entry es ih =>
    have htail : Fit es := fun k v hv => h k v (List.mem_cons_of_mem _ hv)
    intro k v hv
    rw [Entries.put] at hv
    split at hv
    · obtain hv | hv := List.mem_cons.mp hv
      · obtain ⟨-, rfl⟩ := Prod.mk.inj hv
        exact hnode v rfl
      · exact htail k v hv
    · obtain hv | hv := List.mem_cons.mp hv
      · exact h k v (hv ▸ List.mem_cons_self)
      · exact ih htail k v hv

theorem Fit.insert {v : Value} (h : es.Fit) (hv : v.Fits) (heq : es.insert key v = some es') :
    es'.Fit := by
  rw [Entries.insert] at heq
  split at heq
  · obtain rfl := Option.some.inj heq
    exact h.put fun w hw => Node.value.inj hw ▸ hv
  · cases heq

/-- Whatever comes of what is below, it is put back as a table. -/
theorem Fit.put_below {below : Option Entries} {node : Entries → Node} (h : es.Fit)
    (heq : below.map (fun b => es.put key (node b)) = some es')
    (hnode : ∀ b v, node b ≠ .value v) : es'.Fit := by
  obtain ⟨b, -, rfl⟩ := Option.map_eq_some_iff.mp heq
  exact h.put fun v hv => absurd hv (hnode b v)

/-- Tables on the way of a dotted key are put back as tables, whatever was added to them. -/
theorem Fit.insertDotted {v : Value} {path : List String} (h : es.Fit) (hv : v.Fits)
    (heq : es.insertDotted key v path = some es') : es'.Fit := by
  cases path with
  | nil => exact h.insert hv heq
  | cons first path =>
    rw [Entries.insertDotted] at heq
    split at heq
    · exact h.put_below heq nofun
    · exact h.put_below heq nofun
    · split at heq
      · cases heq
      · exact h.put_below heq nofun
    · split at heq
      · cases heq
      · exact h.put_below heq nofun
    · cases heq
    · cases heq

theorem Fit.define (h : es.Fit) (heq : es.define key = some es') : es'.Fit := by
  rw [Entries.define] at heq
  split at heq
  · obtain rfl := Option.some.inj heq
    exact h.put nofun
  · obtain rfl := Option.some.inj heq
    exact h.put nofun
  · cases heq

theorem Fit.append (h : es.Fit) (heq : es.append key = some es') : es'.Fit := by
  rw [Entries.append] at heq
  split at heq
  · obtain rfl := Option.some.inj heq
    exact h.put nofun
  · obtain rfl := Option.some.inj heq
    exact h.put nofun
  · cases heq

/-- A table below is put back as a table, and the table at the end of the path is what the edit
makes of it. -/
theorem Fit.editTable {edit : Entries → Option Entries} {path : List String} (h : es.Fit)
    (hedit : ∀ {es es' : Entries}, es.Fit → edit es = some es' → es'.Fit)
    (heq : es.editTable edit path = some es') : es'.Fit := by
  cases path with
  | nil => exact hedit h heq
  | cons first path =>
    rw [Entries.editTable] at heq
    split at heq
    · exact h.put_below heq nofun
    · exact h.put_below heq nofun
    · exact h.put_below heq nofun
    · cases heq

end Entries

/-! ### Lines -/

section

variable {p p' : Partial} {text rest : List Char}

theorem fit_of_header? (hp : p.entries.Fit) (h : header? p text = some (p', rest)) :
    p'.entries.Fit := by
  rw [header?.eq_def] at h
  split at h
  · obtain ⟨⟨⟨path, key⟩, after⟩, -, h⟩ := Option.bind_eq_some_iff.mp h
    obtain ⟨_, -, h⟩ := Option.bind_eq_some_iff.mp h
    obtain ⟨_, -, h⟩ := Option.bind_eq_some_iff.mp h
    obtain ⟨es, hes, h⟩ := Option.bind_eq_some_iff.mp h
    obtain ⟨rfl, -⟩ := Prod.mk.inj (Option.some.inj h)
    exact hp.editTable Entries.Fit.append hes
  · obtain ⟨⟨⟨path, key⟩, after⟩, -, h⟩ := Option.bind_eq_some_iff.mp h
    obtain ⟨_, -, h⟩ := Option.bind_eq_some_iff.mp h
    obtain ⟨es, hes, h⟩ := Option.bind_eq_some_iff.mp h
    obtain ⟨rfl, -⟩ := Prod.mk.inj (Option.some.inj h)
    exact hp.editTable Entries.Fit.define hes

theorem fit_of_keyLine? (hp : p.entries.Fit) (h : entry? p text = some (p', rest)) :
    p'.entries.Fit := by
  rw [ entry?] at h
  obtain ⟨⟨⟨path, key⟩, after⟩, -, h⟩ := Option.bind_eq_some_iff.mp h
  obtain ⟨_, -, h⟩ := Option.bind_eq_some_iff.mp h
  obtain ⟨⟨v, _⟩, hv, h⟩ := Option.bind_eq_some_iff.mp h
  obtain ⟨es, hes, h⟩ := Option.bind_eq_some_iff.mp h
  obtain ⟨rfl, -⟩ := Prod.mk.inj (Option.some.inj h)
  exact hp.editTable (fun hfit => hfit.insertDotted (fits_of_value? hv)) hes

/-- Behind a line stands its end, and then the document ends or goes on. -/
theorem fit_of_lineEnd? {turns : Nat} (after : List Char) (hp : p.entries.Fit)
    (hnext : ∀ next, lines? turns p next = some p' → p'.entries.Fit)
    (h : (do
      let rest ← dropComment? (dropSpace after)
      match rest with
      | [] => some p
      | rest =>
        let rest ← afterNewline? rest
        lines? turns p rest) = some p') : p'.entries.Fit := by
  obtain ⟨left, -, h⟩ := Option.bind_eq_some_iff.mp h
  split at h
  · obtain rfl := Option.some.inj h
    exact hp
  · obtain ⟨next, -, h⟩ := Option.bind_eq_some_iff.mp h
    exact hnext next h

theorem fit_of_lines? {turns : Nat} (hp : p.entries.Fit) (h : lines? turns p text = some p') :
    p'.entries.Fit := by
  induction turns generalizing p text with
  | zero => cases h
  | succ turns ih =>
    have hnext {q : Partial} (hq : q.entries.Fit) (next : List Char)
        (h : lines? turns q next = some p') : p'.entries.Fit := ih hq h
    simp only [lines?] at h
    split at h
    · obtain ⟨⟨q, after⟩, hline, h⟩ := Option.bind_eq_some_iff.mp h
      have hq := fit_of_header? hp hline
      exact fit_of_lineEnd? after hq (hnext hq) h
    · exact fit_of_lineEnd? [] hp (hnext hp) h
    · split at h
      · exact fit_of_lineEnd? _ hp (hnext hp) h
      · obtain ⟨⟨q, after⟩, hline, h⟩ := Option.bind_eq_some_iff.mp h
        have hq := fit_of_keyLine? hp hline
        exact fit_of_lineEnd? after hq (hnext hq) h

end

/-! ### The finished table -/

theorem mem_toTable {es : Entries} {key : String} {v : Value} (h : (key, v) ∈ toTable es) :
    ∃ node, (key, node) ∈ es ∧ v = node.toValue := by
  induction es with
  | nil => exact absurd h List.not_mem_nil
  | cons entry es ih =>
    rw [toTable] at h
    obtain h | h := List.mem_cons.mp h
    · obtain ⟨rfl, rfl⟩ := Prod.mk.inj h
      exact ⟨entry.2, List.mem_cons_self, rfl⟩
    · obtain ⟨node, hmem, hv⟩ := ih h
      exact ⟨node, List.mem_cons_of_mem _ hmem, hv⟩

theorem mem_entriesWithMoments? {t t' : Table} (h : entriesWithMoments? t = some t')
    {key : String} {v : Value} (hv : (key, v) ∈ t') :
    ∃ w, (key, w) ∈ t ∧ w.withMoments? = some v := by
  induction t generalizing t' with
  | nil =>
    rw [entriesWithMoments?] at h
    obtain rfl := Option.some.inj h
    exact absurd hv List.not_mem_nil
  | cons entry t ih =>
    obtain ⟨k, w⟩ := entry
    rw [entriesWithMoments?] at h
    obtain ⟨w', hw, h⟩ := Option.bind_eq_some_iff.mp h
    obtain ⟨rest, hrest, h⟩ := Option.bind_eq_some_iff.mp h
    obtain rfl := Option.some.inj h
    obtain hv | hv := List.mem_cons.mp hv
    · obtain ⟨rfl, rfl⟩ := Prod.mk.inj hv
      exact ⟨w, List.mem_cons_self, hw⟩
    · obtain ⟨u, hmem, hu⟩ := ih hrest hv
      exact ⟨u, List.mem_cons_of_mem _ hmem, hu⟩

/-- No integer comes about by looking for moments. -/
theorem eq_integer_of_withMoments? {v : Value} {n : Int}
    (h : v.withMoments? = some (.integer n)) : v = .integer n := by
  rw [Value.withMoments?.eq_def] at h
  split at h
  · simp at h
  · split at h
    · next w _ =>
      cases w with
      | string s =>
        rw [Value.toMoment?] at h
        split at h <;> cases h
      | _ => cases h
    · simp at h
  · exact Option.some.inj h

theorem mem_of_get? {t : Table} {key : String} {v : Value} (h : t.get? key = some v) :
    (key, v) ∈ t := by
  obtain ⟨entry, hfind, rfl⟩ := Option.map_eq_some_iff.mp h
  have hkey : entry.1 = key := by simpa using List.find?_some hfind
  exact hkey ▸ List.mem_of_find?_eq_some hfind

/-- The integers that stand directly in the table of a document fit into 64 bits. -/
theorem parse?_fits {document : String} {t : Table} (h : parse? document = some t) : t.Fits := by
  intro key v hv n hn
  subst hn
  obtain ⟨p, hp, h⟩ := Option.bind_eq_some_iff.mp h
  obtain ⟨w, hmem, hw⟩ := mem_entriesWithMoments? h (mem_of_get? hv)
  obtain rfl := eq_integer_of_withMoments? hw
  obtain ⟨node, hnode, hvalue⟩ := mem_toTable hmem
  cases node with
  | value v =>
    rw [Node.toValue] at hvalue
    exact fit_of_lines? Entries.fit_nil hp key v hnode n hvalue.symm
  | table origin entries =>
    rw [Node.toValue] at hvalue
    cases hvalue
  | tables closed last =>
    rw [Node.toValue] at hvalue
    cases hvalue

end FractalFormula.Toml
