import AudioIntake.Proofs.Settings.Spelling
import AudioIntake.Settings.Session

/-!
# A value is read to its end or refused

Whatever well-formed value stands where a setting is wanted, its codec either refuses it or stops right
behind it. So reading never gets out of step with the members of an object, and a setting that is
given a second time is always found out, whatever the values are.
-/

namespace AudioIntake

namespace Grammar

/-- Any well-formed value, given by its text. -/
def Raw (m : String × List Char) (cs : List Char) : Prop := m.2 = cs ∧ WellFormed cs

/-- The text is an object in which one of these names comes twice, whatever its values are. -/
def Repeats (names : List String) (cs : List Char) : Prop :=
  ∃ members, Object Prod.fst Raw members cs ∧ ¬((members.map Prod.fst).filter (· ∈ names)).Nodup

end Grammar

open Grammar Scan

namespace Scan

variable {strict : Bool} {c : Char} {u : Nat} {b cs ds body value member read rest : List Char}

/-- What is read of a well-formed value is all of it. -/
def Exact {α : Type} (scan : List Char → Except Fault (α × List Char)) : Prop :=
  ∀ ⦃cs⦄, WellFormed cs → ∀ ⦃b rest⦄, Blanks b → Ends rest → ∀ ⦃r⦄,
    scan (b ++ (cs ++ rest)) = .ok r → r.2 = rest

/-! ### Strings -/

theorem rest_of_escape {r : Char × List Char} (hds : CodeUnit u ds) (h : Body cs)
    (hr : escape strict ('u' :: (ds ++ (cs ++ '"' :: rest))) = .ok r) :
    ∃ cs', Body cs' ∧ cs'.length ≤ cs.length ∧ r.2 = cs' ++ '"' :: rest := by
  rw [escape, if_pos rfl, unicodeEscape, codeUnit_append hds] at hr
  dsimp only at hr
  split at hr
  · split at hr
    · cases hr
    · obtain rfl := Except.ok.inj hr
      exact ⟨cs, h, Nat.le_refl _, rfl⟩
  split at hr
  · split at hr
    · rename_i hlow
      obtain rfl := Except.ok.inj hr
      exact body_of_lowSurrogate h hlow
    · split at hr
      · cases hr
      · obtain rfl := Except.ok.inj hr
        exact ⟨cs, h, Nat.le_refl _, rfl⟩
  · obtain rfl := Except.ok.inj hr
    exact ⟨cs, h, Nat.le_refl _, rfl⟩

theorem stringBody_refuses {e : Fault} (h : escape strict cs = .error e) :
    stringBody strict read ('\\' :: cs) = .error e := by
  rw [stringBody, if_neg (by decide), if_pos rfl]
  split
  all_goals
    rename_i heq
    rw [h] at heq
    cases heq
  rfl

theorem rest_of_stringBody {r : String × List Char} (h : Body body)
    (hr : stringBody strict read (body ++ '"' :: rest) = .ok r) : r.2 = rest := by
  induction hlen : body.length using Nat.strong_induction_on generalizing body read with
  | _ n ih =>
      cases h with
      | nil =>
          rw [List.nil_append, stringBody_quote] at hr
          cases hr
          rfl
      | plain hc h =>
          rw [List.length_cons] at hlen
          rw [List.cons_append, stringBody_plain hc] at hr
          exact ih _ (by omega) h hr rfl
      | short hc h =>
          simp only [List.length_cons] at hlen
          rw [List.cons_append, List.cons_append, stringBody_escape (escape_short hc _)] at hr
          exact ih _ (by omega) h hr rfl
      | @unit _ ds cs hds h =>
          simp only [List.length_cons, List.length_append] at hlen
          rw [List.cons_append, List.cons_append, List.append_assoc] at hr
          cases hescape : escape strict ('u' :: (ds ++ (cs ++ '"' :: rest))) with
          | error e =>
              rw [stringBody_refuses hescape] at hr
              cases hr
          | ok p =>
              obtain ⟨cs', h', hle, hp⟩ := rest_of_escape hds h hescape
              rw [stringBody_escape hescape, hp] at hr
              exact ih _ (by omega) h' hr rfl

theorem rest_of_memberName {r : String × List Char} (hbody : Body body)
    (h : Member body value member) (hb : Blanks b)
    (hr : memberName true (b ++ (member ++ rest)) = .ok r) :
    ∃ b₁ b₂, Blanks b₁ ∧ Blanks b₂ ∧ r.2 = b₁ ++ ':' :: (b₂ ++ (value ++ rest)) := by
  obtain ⟨hb₁, hb₂⟩ := h
  simp only [List.cons_append, List.append_assoc] at hr
  rw [memberName, expect_append hb rfl] at hr
  exact ⟨_, _, hb₁, hb₂, rest_of_stringBody hbody hr⟩

end Scan

theorem Grammar.Literal.isBody {text body : List Char} (h : Literal text body) : Body body := by
  induction h with
  | nil => exact .nil
  | plain hc _ ih => exact .plain hc ih
  | short hc _ ih => exact .short hc ih
  | unit hds _ ih => exact .unit hds ih
  | pair _ hds hes _ ih => exact .unit hds (.unit hes ih)

namespace Codec

variable {α : Type} {codec : Codec α} {first : Bool} {c : Char} {fuel : Nat}
  {items : List (List Char)} {b cs rest : List Char}

/-! ### Scalars -/

theorem integer_refuses {least greatest : Int} (hb : Blanks b) (hblank : isBlank c = false)
    (hc : startsNumber c = false) :
    (integer least greatest).scan (b ++ c :: rest) = .error (unexpected c rest) := by
  rw [integer]
  dsimp only
  rw [nextChar_append hb hblank]
  exact if_neg (Bool.eq_false_iff.mp hc)

theorem exact_integer (least greatest : Int) : Exact (integer least greatest).scan := by
  intro cs hcs b rest hb hrest r hr
  cases hcs with
  | number h =>
      obtain ⟨n, hn⟩ := numeral_append .truncated h hrest
      obtain ⟨c, tail, rfl, hc⟩ := exists_cons_of_number h
      rw [List.cons_append] at hn hr
      rw [integer] at hr
      dsimp only at hr
      rw [nextChar_append hb (isBlank_of_opens_number hc)] at hr
      dsimp only [bind, Except.bind] at hr
      rw [if_pos (by simpa [startsNumber] using hc), hn] at hr
      dsimp only at hr
      split at hr
      · split at hr
        · cases hr
          rfl
        · cases hr
      · cases hr
  | _ =>
      rw [List.cons_append, integer_refuses hb rfl rfl] at hr
      cases hr

theorem exact_mapped_integer {least greatest : Int} {f : Int → α} {back : α → Int} :
    Exact ((integer least greatest).map f back).scan := by
  intro cs hcs b rest hb hrest r hr
  obtain ⟨p, hp, rfl⟩ := map_eq_ok_iff.mp hr
  exact exact_integer _ _ hcs hb hrest hp

theorem text_refuses {read : String → Option α} {write : α → String} (hb : Blanks b)
    (hblank : isBlank c = false) (hc : c ≠ '"') :
    (text read write).scan (b ++ c :: rest) = .error (unexpected c rest) := by
  rw [text]
  dsimp only
  rw [nextChar_append hb hblank]
  exact if_neg hc

theorem exact_text (read : String → Option α) (write : α → String) :
    Exact (text read write).scan := by
  intro cs hcs b rest hb hrest r hr
  cases hcs with
  | string h =>
      rw [List.cons_append, List.append_assoc, List.singleton_append, text] at hr
      dsimp only at hr
      rw [nextChar_append hb rfl] at hr
      obtain ⟨_, ⟨⟩, hr⟩ := bind_eq_ok_iff.mp hr
      dsimp only at hr
      rw [if_pos rfl] at hr
      obtain ⟨p, hp, hr⟩ := bind_eq_ok_iff.mp hr
      have hrest := rest_of_stringBody h hp
      split at hr
      · cases hr
        exact hrest
      · cases hr
  | number h =>
      obtain ⟨c, tail, rfl, hc⟩ := exists_cons_of_number h
      rw [List.cons_append, text_refuses hb (isBlank_of_opens_number hc)
        (ne_of_opens_number hc (by decide))] at hr
      cases hr
  | _ =>
      rw [List.cons_append, text_refuses hb rfl (by decide)] at hr
      cases hr

theorem optional_scan_of_ne (hb : Blanks b) (hblank : isBlank c = false) (hc : c ≠ 'n') :
    codec.optional.scan (b ++ c :: rest) =
      (codec.scan (b ++ c :: rest)).map fun (a, rest) => (some a, rest) := by
  rw [Codec.optional]
  dsimp only
  rw [nextChar_append hb hblank]
  exact if_neg hc

theorem exact_optional (h : Exact codec.scan) : Exact codec.optional.scan := by
  intro cs hcs b rest hb hrest r hr
  have hother {c : Char} {tail : List Char} (hcons : cs = c :: tail) (hblank : isBlank c = false)
      (hc : c ≠ 'n') : r.2 = rest := by
    rw [hcons, List.cons_append, optional_scan_of_ne hb hblank hc, ← List.cons_append, ← hcons] at hr
    obtain ⟨p, hp, rfl⟩ := map_eq_ok_iff.mp hr
    exact h hcs hb hrest hp
  cases hcs with
  | null =>
      rw [List.cons_append, Codec.optional] at hr
      dsimp only at hr
      rw [nextChar_append hb rfl] at hr
      cases hr
      rfl
  | number h =>
      obtain ⟨c, tail, hcons, hc⟩ := exists_cons_of_number h
      exact hother hcons (isBlank_of_opens_number hc) (ne_of_opens_number hc (by decide))
  | _ => exact hother rfl rfl (by decide)

/-! ### Lists -/

theorem rest_of_scanItems {r : List α × List Char} (h : Exact codec.scan)
    (hitems : ∀ item ∈ items, WellFormed item) (hcs : Sequence Eq first items cs)
    (hr : scanItems codec fuel first (cs ++ ']' :: rest) = .ok r) : r.2 = rest := by
  induction items generalizing first cs fuel r with
  | nil =>
      obtain ⟨hb⟩ := hcs
      obtain _ | fuel := fuel
      · cases hr
      rw [scanItems, nextChar_append hb rfl] at hr
      cases hr
      rfl
  | cons item items ih =>
      obtain - | ⟨hb, hb', rfl, hmore⟩ := hcs
      rename_i b b' more
      obtain _ | fuel := fuel
      · cases hr
      obtain ⟨hitem, hitems⟩ := List.forall_mem_cons.mp hitems
      obtain ⟨c, tail, hcons, hblank, hne⟩ := exists_cons_of_wellFormed hitem
      obtain ⟨d, tail', b'', hnext, hd, hb'', hseparator⟩ :=
        separator_append first ']' (by decide) hb hb' hblank hne (tail ++ (more ++ ']' :: rest)) rfl
      rw [← List.cons_append, ← hcons] at hnext hseparator
      have hends : Ends (more ++ ']' :: rest) := hmore.ends (ends_cons (by decide))
      simp only [List.append_assoc] at hr
      rw [scanItems, hnext] at hr
      obtain ⟨_, ⟨⟩, hr⟩ := bind_eq_ok_iff.mp hr
      dsimp only at hr
      rw [if_neg hd, hseparator] at hr
      obtain ⟨_, ⟨⟩, hr⟩ := bind_eq_ok_iff.mp hr
      obtain ⟨⟨a, rest'⟩, ha, hr⟩ := bind_eq_ok_iff.mp hr
      obtain rfl : rest' = _ := h hitem hb'' hends ha
      obtain ⟨⟨as, rest''⟩, has, hr⟩ := bind_eq_ok_iff.mp hr
      have hrest := ih hitems hmore has
      cases hr
      exact hrest

theorem list_refuses (hb : Blanks b) (hblank : isBlank c = false) (hc : c ≠ '[') :
    (list codec).scan (b ++ c :: rest) = .error (unexpected c rest) := by
  rw [list]
  dsimp only
  rw [nextChar_append hb hblank]
  exact if_neg hc

theorem exact_list (h : Exact codec.scan) : Exact (list codec).scan := by
  intro cs hcs b rest hb hrest r hr
  cases hcs with
  | array hitems hcs =>
      rw [List.cons_append, List.append_assoc, List.singleton_append, list] at hr
      dsimp only at hr
      rw [nextChar_append hb rfl] at hr
      exact rest_of_scanItems h hitems hcs hr
  | number h =>
      obtain ⟨c, tail, rfl, hc⟩ := exists_cons_of_number h
      rw [List.cons_append, list_refuses hb (isBlank_of_opens_number hc)
        (ne_of_opens_number hc (by decide))] at hr
      cases hr
  | _ =>
      rw [List.cons_append, list_refuses hb rfl (by decide)] at hr
      cases hr

end Codec

/-! ### Records -/

namespace Field

variable {σ α : Type} {fields : List (Field σ)} {first : Bool} {fuel : Nat} {seen : List String}
  {s : σ} {b b' cs body value member rest : List Char}

/-- Once a member has been read, its value too if a field wants it, what is left is what stands behind
the member. -/
theorem scanMembers_ok {r : σ × List Char} (hfields : ∀ f ∈ fields, Exact f.scan) (hbody : Body body)
    (hvalue : WellFormed value) (hm : Member body value member) (hb : Blanks b) (hb' : Blanks b')
    (hrest : Ends rest) (hcs : cs = b ++ ((if first then [] else [',']) ++ (b' ++ (member ++ rest))))
    (hr : scanMembers fields (fuel + 1) first seen s cs = .ok r) :
    ∃ n b₂, Blanks b₂ ∧ (∀ text, Literal text body → n = String.ofList text) ∧
      ((∃ f put, fields.find? (·.name = n) = some f ∧ n ∉ seen ∧
          f.scan (b₂ ++ (value ++ rest)) = .ok (put, rest) ∧
          scanMembers fields fuel false (n :: seen) (put s) rest = .ok r) ∨
        fields.find? (·.name = n) = none ∧ scanMembers fields fuel false seen s rest = .ok r) := by
  have hquote : ∃ tail, member = '"' :: tail := by
    obtain ⟨-, -⟩ := hm
    exact ⟨_, rfl⟩
  obtain ⟨b'', hb'', hrefused, hread⟩ :=
    scanMembers_named fields first fuel seen s hquote hb hb' rest hcs
  cases hname : memberName true (b'' ++ (member ++ rest)) with
  | error e =>
      rw [hrefused e hname] at hr
      cases hr
  | ok p =>
      obtain ⟨n, behind⟩ := p
      obtain ⟨b₁, b₂, hb₁, hb₂, rfl⟩ : ∃ b₁ b₂, Blanks b₁ ∧ Blanks b₂ ∧
          behind = b₁ ++ ':' :: (b₂ ++ (value ++ rest)) := rest_of_memberName hbody hm hb'' hname
      obtain ⟨hfound, hmissed⟩ := hread n b₁ _ hb₁ hname
      refine ⟨n, b₂, hb₂, fun text htext => ?_, ?_⟩
      · obtain ⟨_, _, -, -, hliteral⟩ := memberName_literal htext hm hb'' rest
        rw [hname] at hliteral
        exact congrArg Prod.fst (Except.ok.inj hliteral)
      cases hfind : fields.find? (·.name = n) with
      | some f =>
          rw [hfound f hfind] at hr
          split at hr
          · cases hr
          rename_i hmem
          obtain ⟨⟨put, left⟩, hscan, hr⟩ := bind_eq_ok_iff.mp hr
          have hleft : left = rest :=
            hfields f (List.mem_of_find?_eq_some hfind) hvalue hb₂ hrest hscan
          rw [hleft] at hscan hr
          exact .inl ⟨f, put, rfl, hmem, hscan, hr⟩
      | none =>
          obtain ⟨v, hv⟩ := value_append hvalue hb₂ hrest
          rw [hmissed hfind, hv] at hr
          exact .inr ⟨rfl, hr⟩

theorem rest_of_scanMembers {members : List (List Char × List Char)} {r : σ × List Char}
    (hfields : ∀ f ∈ fields, Exact f.scan) (hnames : ∀ m ∈ members, Body m.1)
    (hvalues : ∀ m ∈ members, WellFormed m.2)
    (hcs : Sequence (fun m => Member m.1 m.2) first members cs)
    (hr : scanMembers fields fuel first seen s (cs ++ '\x7d' :: rest) = .ok r) : r.2 = rest := by
  induction members generalizing first seen s cs fuel with
  | nil =>
      obtain ⟨hb⟩ := hcs
      obtain _ | fuel := fuel
      · cases hr
      rw [scanMembers, nextChar_append hb rfl] at hr
      cases hr
      rfl
  | cons m members ih =>
      obtain - | ⟨hb, hb', hm, hmore⟩ := hcs
      obtain _ | fuel := fuel
      · cases hr
      obtain ⟨hname, hnames⟩ := List.forall_mem_cons.mp hnames
      obtain ⟨hvalue, hvalues⟩ := List.forall_mem_cons.mp hvalues
      simp only [List.append_assoc] at hr
      obtain ⟨n, b₂, -, -, ⟨f, put, -, -, -, hr⟩ | ⟨-, hr⟩⟩ :=
        scanMembers_ok hfields hname hvalue hm hb hb' (hmore.ends (ends_cons (by decide))) rfl hr
      · exact ih hnames hvalues hmore hr
      · exact ih hnames hvalues hmore hr

/-- An array with more elements than there are fields is refused at the first one too many. -/
theorem rest_of_scanElements {items : List (List Char)} {r : σ × List Char}
    (hfields : ∀ f ∈ fields, Exact f.scan) (hitems : ∀ item ∈ items, WellFormed item)
    (hcs : Sequence Eq first items cs)
    (hr : scanElements fields first s (cs ++ ']' :: rest) = .ok r) : r.2 = rest := by
  induction items generalizing first s cs fields with
  | nil =>
      obtain ⟨hb⟩ := hcs
      cases fields with
      | nil =>
          rw [scanElements, expect_append hb rfl] at hr
          cases hr
          rfl
      | cons f fields =>
          rw [scanElements, nextChar_append hb rfl] at hr
          cases hr
          rfl
  | cons item items ih =>
      obtain - | ⟨hb, hb', rfl, hmore⟩ := hcs
      rename_i b b' more
      obtain ⟨hitem, hitems⟩ := List.forall_mem_cons.mp hitems
      obtain ⟨c, tail, hcons, hblank, hne⟩ := exists_cons_of_wellFormed hitem
      obtain ⟨d, tail', b'', hnext, hd, hb'', hseparator⟩ :=
        Codec.separator_append first ']' (by decide) hb hb' hblank hne
          (tail ++ (more ++ ']' :: rest)) rfl
      rw [← List.cons_append, ← hcons] at hnext hseparator
      simp only [List.append_assoc] at hr
      cases fields with
      | nil =>
          rw [scanElements, expect, hnext] at hr
          obtain ⟨_, hclosed, -⟩ := bind_eq_ok_iff.mp hr
          obtain ⟨_, ⟨⟩, hclosed⟩ := bind_eq_ok_iff.mp hclosed
          dsimp only at hclosed
          rw [if_neg hd] at hclosed
          cases hclosed
      | cons f fields =>
          obtain ⟨hf, hfields⟩ := List.forall_mem_cons.mp hfields
          have hends : Ends (more ++ ']' :: rest) := hmore.ends (ends_cons (by decide))
          rw [scanElements, hnext] at hr
          obtain ⟨_, ⟨⟩, hr⟩ := bind_eq_ok_iff.mp hr
          dsimp only at hr
          rw [if_neg hd, hseparator] at hr
          obtain ⟨_, ⟨⟩, hr⟩ := bind_eq_ok_iff.mp hr
          obtain ⟨⟨put, left⟩, hscan, hr⟩ := bind_eq_ok_iff.mp hr
          have hleft : left = _ := hf hitem hb'' hends hscan
          rw [hleft] at hr
          exact ih hfields hitems hmore hr

theorem exact_of {codec : Codec α} {name : String} {get : σ → α} {set : α → σ → σ}
    (h : Exact codec.scan) : Exact (Field.of name codec get set).scan := by
  intro cs hcs b rest hb hrest r hr
  obtain ⟨p, hp, rfl⟩ := map_eq_ok_iff.mp hr
  exact h hcs hb hrest hp

/-- An object is only read if no name that is known comes twice and each value of a known name is
read. -/
theorem once_of_scanMembers {ms : List (String × List Char)} {r : σ × List Char}
    (hfields : ∀ f ∈ fields, Exact f.scan) (hcs : Sequence (Named Prod.fst Raw) first ms cs)
    (hseen : seen.Nodup)
    (hr : scanMembers fields fuel first seen s (cs ++ '\x7d' :: rest) = .ok r) :
    (seen ++ (ms.map Prod.fst).filter (· ∈ fields.map Field.name)).Nodup ∧
      ∀ m ∈ ms, ∀ f, fields.find? (·.name = m.1) = some f →
        ∃ b rest put, Blanks b ∧ Ends rest ∧ f.scan (b ++ (m.2 ++ rest)) = .ok (put, rest) := by
  induction ms generalizing first seen s cs fuel with
  | nil => exact ⟨by simpa using hseen, nofun⟩
  | cons m ms ih =>
      obtain - | ⟨hb, hb', ⟨hname, ⟨rfl, hvalue⟩, hm⟩, hmore⟩ := hcs
      rename_i b b' member more body
      obtain _ | fuel := fuel
      · cases hr
      have hends : Ends (more ++ '\x7d' :: rest) := hmore.ends (ends_cons (by decide))
      simp only [List.append_assoc] at hr
      obtain ⟨n, b₂, hb₂, hn, hr⟩ :=
        scanMembers_ok hfields hname.isBody hvalue hm hb hb' hends rfl hr
      obtain rfl : n = m.1 := (hn _ hname).trans (String.ofList_toList)
      obtain ⟨f, put, hfind, hmem, hscan, hr⟩ | ⟨hfind, hr⟩ := hr
      · obtain ⟨hnodup, hvalues⟩ := ih hmore (List.nodup_cons.mpr ⟨hmem, hseen⟩) hr
        have hknown : m.1 ∈ fields.map Field.name :=
          List.mem_map.mpr ⟨f, List.mem_of_find?_eq_some hfind, by simpa using List.find?_some hfind⟩
        rw [List.map_cons, List.filter_cons_of_pos (by simpa using hknown),
          List.perm_middle.nodup_iff]
        refine ⟨hnodup, List.forall_mem_cons.mpr ⟨fun f' hf' => ?_, hvalues⟩⟩
        obtain rfl : f = f' := Option.some.inj (hfind.symm.trans hf')
        exact ⟨b₂, _, put, hb₂, hends, hscan⟩
      · obtain ⟨hnodup, hvalues⟩ := ih hmore hseen hr
        have hunknown : m.1 ∉ fields.map Field.name := by
          rintro hknown
          obtain ⟨f, hf, hname⟩ := List.mem_map.mp hknown
          exact List.find?_eq_none.mp hfind f hf (by simpa using hname)
        rw [List.map_cons, List.filter_cons_of_neg (by simpa using hunknown)]
        refine ⟨hnodup, List.forall_mem_cons.mpr ⟨fun f hf => ?_, hvalues⟩⟩
        rw [hfind] at hf
        cases hf

end Field

namespace Codec

variable {σ : Type} {fields : List (Field σ)} {s : σ} {c : Char} {b cs rest : List Char}

theorem record_refuses (hb : Blanks b) (hblank : isBlank c = false) (hobject : c ≠ '\x7b')
    (harray : c ≠ '[') :
    (record fields s).scan (b ++ c :: rest) = .error (unexpected c rest) := by
  rw [record]
  dsimp only
  rw [nextChar_append hb hblank]
  dsimp only [bind, Except.bind]
  rw [if_neg hobject, if_neg harray]

theorem exact_record (hfields : ∀ f ∈ fields, Exact f.scan) : Exact (record fields s).scan := by
  intro cs hcs b rest hb hrest r hr
  cases hcs with
  | object hnames hvalues hcs =>
      rw [List.cons_append, List.append_assoc, List.singleton_append, record] at hr
      dsimp only at hr
      rw [nextChar_append hb rfl] at hr
      exact Field.rest_of_scanMembers hfields hnames hvalues hcs hr
  | array hitems hcs =>
      rw [List.cons_append, List.append_assoc, List.singleton_append, record] at hr
      dsimp only at hr
      rw [nextChar_append hb rfl] at hr
      exact Field.rest_of_scanElements hfields hitems hcs hr
  | number h =>
      obtain ⟨c, tail, rfl, hc⟩ := exists_cons_of_number h
      rw [List.cons_append, record_refuses hb (isBlank_of_opens_number hc)
        (ne_of_opens_number hc (by decide)) (ne_of_opens_number hc (by decide))] at hr
      cases hr
  | _ =>
      rw [List.cons_append, record_refuses hb rfl (by decide) (by decide)] at hr
      cases hr

/-- The same of a record as of the members in its object. -/
theorem once_of_record {members : List (String × List Char)} {r : σ × List Char}
    (hfields : ∀ f ∈ fields, Exact f.scan) (hcs : Object Prod.fst Raw members cs) (hb : Blanks b)
    (hr : (record fields s).scan (b ++ (cs ++ rest)) = .ok r) :
    ((members.map Prod.fst).filter (· ∈ fields.map Field.name)).Nodup ∧
      ∀ m ∈ members, ∀ f, fields.find? (·.name = m.1) = some f →
        ∃ b rest put, Blanks b ∧ Ends rest ∧ f.scan (b ++ (m.2 ++ rest)) = .ok (put, rest) := by
  obtain ⟨hcs⟩ := hcs
  rw [List.cons_append, List.append_assoc, List.singleton_append, record] at hr
  dsimp only at hr
  rw [nextChar_append hb rfl] at hr
  exact Field.once_of_scanMembers hfields hcs List.nodup_nil hr

end Codec

/-! ### The settings -/

theorem StreamSettings.exact_fields : ∀ f ∈ StreamSettings.fields, Exact f.scan := by
  simp only [StreamSettings.fields, List.forall_mem_cons]
  exact ⟨Field.exact_of Codec.exact_mapped_integer,
    Field.exact_of (Codec.exact_list Codec.exact_mapped_integer),
    Field.exact_of Codec.exact_mapped_integer, Field.exact_of Codec.exact_mapped_integer,
    Field.exact_of Codec.exact_mapped_integer, Field.exact_of Codec.exact_mapped_integer, nofun⟩

theorem SessionSettings.exact_fields : ∀ f ∈ SessionSettings.fields, Exact f.scan := by
  simp only [SessionSettings.fields, List.forall_mem_cons]
  exact ⟨Field.exact_of (Codec.exact_text _ _), Field.exact_of Codec.exact_mapped_integer,
    Field.exact_of Codec.exact_mapped_integer, Field.exact_of Codec.exact_mapped_integer,
    Field.exact_of (Codec.exact_optional (Codec.exact_text _ _)),
    Field.exact_of Codec.exact_mapped_integer,
    Field.exact_of (Codec.exact_record StreamSettings.exact_fields), nofun⟩

end AudioIntake
