import TierQuery.Json.Record
import TierQuery.Proofs.Levels

/-! Reading records. A record that is read has filled its fields one after the other, and whatever
the document gave went into one of them: members that are no field and members that come twice are
refused. So what a field holds in the end is what was read for it. -/

namespace TierQuery.Json

/-- The names of the members of an object, in their order. -/
def Document.memberNames : Document → List String
  | .object members _ => members.map (·.1)
  | _ => []

namespace Record

variable {σ α : Type} {fields : List (RecordField σ)} {s t : σ} {d : Document}
  {ds : List (String × Document)} {name : String}

/-- What a document gives for the fields: its members, or its elements under the names of the
fields in their order. -/
def given (fields : List (RecordField σ)) : Document → List (String × Document)
  | .object members _ => members
  | .array items _ => (fields.map (·.name)).zip items
  | _ => []

/-- The document has nothing but fields, each of them once. -/
def Known (fields : List (RecordField σ)) : Document → Prop
  | .object members _ =>
    (∀ m ∈ members, m.1 ∈ fields.map (·.name)) ∧ (members.map (·.1)).Nodup
  | .array items _ => items.length ≤ fields.length
  | _ => False

/-- The elements that a document gives for the field `name`. -/
def elements (fields : List (RecordField σ)) (name : String) (d : Document) : List Document :=
  match (given fields d).find? (·.1 = name) with
  | some (_, .array items _) => items
  | _ => []

/-- From `s` to `t`, fields are filled from the given documents in their order. -/
inductive Fills (fields : List (RecordField σ)) : σ → List (String × Document) → σ → Prop
  | nil (s : σ) : Fills fields s [] s
  | cons {f : RecordField σ} {s s' t : σ} {d : Document} {ds : List (String × Document)}
      (hf : f ∈ fields) (hfill : f.fill s d = .ok s') (hrest : Fills fields s' ds t) :
      Fills fields s ((f.name, d) :: ds) t

/-- Filling a field fills the fields of that name and no others. -/
def Apart (fields : List (RecordField σ)) : Prop :=
  ∀ f ∈ fields, ∀ s d s', f.fill s d = .ok s' →
    ∀ g ∈ fields, g.filled s' = (decide (g.name = f.name) || g.filled s)

/-- What `get` sees of a state is what `read` makes of the field `name`. -/
def Sees (fields : List (RecordField σ)) (name : String) (read : Document → Read α)
    (get : σ → Option α) : Prop :=
  ∀ f ∈ fields, ∀ s d s', f.fill s d = .ok s' →
    if f.name = name then ∃ a, read d = .ok a ∧ get s' = some a else get s' = get s

/-! Members and elements -/

theorem fills_of_readMembers (hapart : Apart fields) (h : readMembers fields s ds = .ok t) :
    Fills fields s ds t ∧ (∀ m ∈ ds, ∃ f ∈ fields, f.name = m.1 ∧ f.filled s = false) ∧
      (ds.map (·.1)).Nodup := by
  induction ds generalizing s with
  | nil =>
    cases h
    exact ⟨.nil _, by simp, by simp⟩
  | cons m ds ih =>
    obtain ⟨name, d⟩ := m
    rw [readMembers] at h
    split at h
    · cases h
    · next f hfind =>
      have hf := List.mem_of_find?_eq_some hfind
      obtain rfl : f.name = name := by simpa using List.find?_some hfind
      split at h
      · cases h
      next hempty =>
      obtain ⟨s', hfill, hrest⟩ := bind_eq_ok_iff.1 h
      obtain ⟨hfills, hfree, hnodup⟩ := ih hrest
      refine ⟨.cons hf hfill hfills, ?_, ?_⟩
      · rintro m (_ | ⟨_, hm⟩)
        · exact ⟨f, hf, rfl, by simpa using hempty⟩
        · obtain ⟨g, hg, hname, hempty⟩ := hfree m hm
          rw [hapart f hf s d s' hfill g hg, Bool.or_eq_false_iff] at hempty
          exact ⟨g, hg, hname, hempty.2⟩
      · rw [List.map_cons, List.nodup_cons]
        refine ⟨fun hmem => ?_, hnodup⟩
        obtain ⟨m, hm, hname⟩ := List.mem_map.1 hmem
        obtain ⟨g, hg, hgname, hempty⟩ := hfree m hm
        rw [hapart f hf s d s' hfill g hg, Bool.or_eq_false_iff] at hempty
        exact absurd (hgname.trans hname) (by simpa using hempty.1)

theorem closed_eq_ok {ending : Option Cut} {a b : α}
    (h : ofBreak (Document.closed ending a) = .ok b) : a = b := by
  cases ending with
  | none => exact Except.ok.inj h
  | some cut => cases h

theorem wrongType_ne_ok {expected : String} {a : α} : wrongType d expected ≠ .ok a := by
  intro h
  unfold wrongType at h
  split at h <;> cases h

theorem last_eq_ok {rest : List Document} {ending : Option Cut} {a b : α}
    (h : last rest ending a = .ok b) : rest = [] ∧ a = b := by
  unfold last at h
  split at h
  · cases h
  · split_ifs at h with hrest
    exact ⟨List.isEmpty_iff.1 hrest, closed_eq_ok h⟩

theorem fills_of_readElements {shape : String} {total : Nat} {ending : Option Cut}
    {fs : List (RecordField σ)} {items : List Document} (hfs : fs ⊆ fields)
    (h : readElements shape total ending fs s items = .ok t) :
    Fills fields s ((fs.map (·.name)).zip items) t ∧ items.length ≤ fs.length := by
  induction fs generalizing s items with
  | nil =>
    obtain ⟨rfl, rfl⟩ := last_eq_ok h
    exact ⟨.nil s, Nat.le_refl 0⟩
  | cons f fs ih =>
    obtain ⟨hf, hfs⟩ := List.cons_subset.1 hfs
    cases items with
    | nil =>
      unfold readElements at h
      split at h
      · cases h
      · split at h
        · cases h
        · obtain ⟨hfills, -⟩ := ih hfs h
          exact ⟨by simpa using hfills, Nat.zero_le _⟩
    | cons d items =>
      obtain ⟨s', hfill, hrest⟩ := bind_eq_ok_iff.1 h
      obtain ⟨hfills, hlength⟩ := ih hfs hrest
      exact ⟨.cons hf hfill hfills, Nat.succ_le_succ hlength⟩

theorem fills_of_record {shape : String} {initial : σ} (hapart : Apart fields)
    (h : record shape fields initial d = .ok t) :
    Known fields d ∧ Fills fields initial (given fields d) t := by
  unfold record at h
  split at h
  · next members ending =>
    obtain ⟨s, hs, h⟩ := bind_eq_ok_iff.1 h
    obtain ⟨s', hclosed, h⟩ := bind_eq_ok_iff.1 h
    obtain ⟨-, -, h⟩ := bind_eq_ok_iff.1 h
    obtain rfl := closed_eq_ok hclosed
    cases h
    obtain ⟨hfills, hfree, hnodup⟩ := fills_of_readMembers hapart hs
    refine ⟨⟨fun m hm => ?_, hnodup⟩, hfills⟩
    obtain ⟨f, hf, hname, -⟩ := hfree m hm
    exact List.mem_map.2 ⟨f, hf, hname⟩
  · cases h
  · next items ending =>
    obtain ⟨hfills, hlength⟩ := fills_of_readElements (fun _ hf => hf) h
    exact ⟨hlength, hfills⟩
  · exact absurd h wrongType_ne_ok

/-! What a field holds -/

variable {read : Document → Read α} {get : σ → Option α}

namespace Fills

theorem get_of_not_mem (hsees : Sees fields name read get) (h : Fills fields s ds t)
    (hname : name ∉ ds.map (·.1)) : get t = get s := by
  induction h with
  | nil s => rfl
  | @cons f s s' t d ds hf hfill hrest ih =>
    rw [List.map_cons, List.mem_cons, not_or] at hname
    have hsame := hsees f hf s d s' hfill
    rw [if_neg (Ne.symm hname.1)] at hsame
    rw [ih hname.2, hsame]

theorem get_of_mem (hsees : Sees fields name read get) (h : Fills fields s ds t)
    (hnodup : (ds.map (·.1)).Nodup) (hd : (name, d) ∈ ds) :
    ∃ a, read d = .ok a ∧ get t = some a := by
  induction h with
  | nil s => cases hd
  | @cons f s s' t e ds hf hfill hrest ih =>
    rw [List.map_cons, List.nodup_cons] at hnodup
    have hstep := hsees f hf s e s' hfill
    rcases List.mem_cons.1 hd with hhead | htail
    · obtain ⟨rfl, rfl⟩ := Prod.mk.inj hhead
      rw [if_pos rfl] at hstep
      obtain ⟨a, hread, hget⟩ := hstep
      exact ⟨a, hread, by rw [hrest.get_of_not_mem hsees hnodup.1, hget]⟩
    · exact ih hnodup.2 htail

end Fills

theorem fst_zip_sublist {α β : Type} (as : List α) (bs : List β) :
    ((as.zip bs).map (·.1)).Sublist as := by
  induction as generalizing bs with
  | nil => exact .slnil
  | cons a as ih =>
    cases bs with
    | nil => exact List.nil_sublist _
    | cons b bs => exact (ih bs).cons_cons a

theorem nodup_given (hnames : (fields.map (·.name)).Nodup) (h : Known fields d) :
    ((given fields d).map (·.1)).Nodup := by
  unfold given
  split
  · exact h.2
  · exact hnames.sublist (fst_zip_sublist _ _)
  · exact List.nodup_nil

theorem sequence_eq_ok {as : List α} (h : sequence read d = .ok as) :
    ∃ items ending, d = .array items ending ∧
      List.Forall₂ (fun e a => read e = .ok a) items as := by
  unfold sequence at h
  split at h
  · next items ending =>
    obtain ⟨bs, hbs, hclosed⟩ := bind_eq_ok_iff.1 h
    obtain rfl := closed_eq_ok hclosed
    exact ⟨items, ending, rfl, mapM_eq_ok_iff.1 hbs⟩
  · exact absurd h wrongType_ne_ok

/-- A field that holds a list holds what was read of the elements that are given for it. -/
theorem forall₂_elements {shape : String} {initial : σ} {get : σ → Option (List α)}
    (hapart : Apart fields) (hnames : (fields.map (·.name)).Nodup)
    (hsees : Sees fields name (sequence read) get) (hinitial : get initial = none)
    (h : record shape fields initial d = .ok t) :
    List.Forall₂ (fun e a => read e = .ok a) (elements fields name d) ((get t).getD []) := by
  obtain ⟨hknown, hfills⟩ := fills_of_record hapart h
  unfold elements
  cases hfind : (given fields d).find? (·.1 = name) with
  | none =>
    have hname : name ∉ (given fields d).map (·.1) := fun hmem => by
      obtain ⟨m, hm, hname⟩ := List.mem_map.1 hmem
      exact List.find?_eq_none.1 hfind m hm (decide_eq_true hname)
    rw [hfills.get_of_not_mem hsees hname, hinitial]
    exact .nil
  | some m =>
    obtain ⟨n, e⟩ := m
    obtain rfl : n = name := by simpa using List.find?_some hfind
    obtain ⟨as, hread, hget⟩ := hfills.get_of_mem hsees (nodup_given hnames hknown)
      (List.mem_of_find?_eq_some hfind)
    obtain ⟨items, ending, rfl, hitems⟩ := sequence_eq_ok hread
    rw [hget]
    exact hitems

end Record

end TierQuery.Json
