import AudioIntake.Proofs.Json.Skipping
import AudioIntake.Settings.Stream
import Mathlib.Data.List.Nodup

/-!
# Values as they may be written

Which texts are values of a type, and that its codec reads each of them, whatever blanks stand in
front and whatever may follow. A record is read from any object in which members that are known
stand, once each, among members that are not.
-/

namespace AudioIntake

namespace Grammar

variable {α μ : Type}

/-- The decimal text of the number behind a value. -/
def Decimal (number : α → Int) (a : α) (cs : List Char) : Prop := cs = integer (number a)

/-- A string whose text is read as this value. -/
inductive Quoted (read : String → Option α) (a : α) : List Char → Prop where
  | intro {text : String} {body : List Char} (hread : read text = some a)
      (hbody : Literal text.toList body) : Quoted read a ('"' :: (body ++ ['"']))

inductive Nullable (Spells : α → List Char → Prop) : Option α → List Char → Prop where
  | null : Nullable Spells none ['n', 'u', 'l', 'l']
  | value {a : α} {cs : List Char} (h : Spells a cs) : Nullable Spells (some a) cs

inductive Listed (Spells : α → List Char → Prop) (as : List α) : List Char → Prop where
  | intro {cs : List Char} (h : Sequence Spells true as cs) : Listed Spells as ('[' :: (cs ++ [']']))

/-- A member whose name may be escaped in any way. -/
inductive Named (name : μ → String) (Spells : μ → List Char → Prop) (m : μ) : List Char → Prop where
  | intro {body value cs : List Char} (hname : Literal (name m).toList body)
      (hvalue : Spells m value) (h : Member body value cs) : Named name Spells m cs

inductive Object (name : μ → String) (Spells : μ → List Char → Prop) (ms : List μ) :
    List Char → Prop where
  | intro {cs : List Char} (h : Sequence (Named name Spells) true ms cs) :
      Object name Spells ms ('\x7b' :: (cs ++ ['\x7d']))

end Grammar

open Grammar Scan

namespace Codec

variable {α β : Type} {codec : Codec α} {Spells : α → List Char → Prop} {first : Bool}
  {c : Char} {fuel : Nat} {as : List α} {b b' cs rest : List Char}

/-- The codec reads every such text of a value up to its end. -/
def Reads (codec : Codec α) (Spells : α → List Char → Prop) : Prop :=
  ∀ ⦃a cs⦄, Spells a cs → ∀ ⦃b rest⦄, Blanks b → Ends rest →
    codec.scan (b ++ (cs ++ rest)) = .ok (a, rest)

/-- Each of these texts has a first character, and it is another one. -/
def NeverOpens (Spells : α → List Char → Prop) (c : Char) : Prop :=
  ∀ ⦃a cs⦄, Spells a cs → ∃ d tail, cs = d :: tail ∧ isBlank d = false ∧ d ≠ c

/-! ### Numbers and strings -/

/-- Integers in a range, for values that are told apart by theirs. -/
theorem reads_decimal {least greatest : Int} {number : α → Int} {ofInt : Int → α}
    (hofInt : ∀ a, ofInt (number a) = a) (hleast : ∀ a, least ≤ number a)
    (hgreatest : ∀ a, number a ≤ greatest) :
    ((integer least greatest).map ofInt number).Reads (Decimal number) := by
  rintro a _ rfl b rest hb hrest
  have hread := numeral_integer .truncated (number a) hrest
  obtain ⟨c, tail, hcons, hc⟩ := exists_cons_of_number (number_integer (number a))
  rw [hcons, List.cons_append] at hread ⊢
  have hscan : (integer least greatest).scan (b ++ c :: (tail ++ rest)) = .ok (number a, rest) := by
    rw [integer]
    dsimp only
    rw [nextChar_append hb (isBlank_of_opens_number hc)]
    dsimp only [bind, Except.bind]
    rw [if_pos (by simpa [startsNumber] using hc), hread]
    dsimp only
    rw [Numeral.toInt?_ofInt]
    exact if_pos ⟨hleast a, hgreatest a⟩
  rw [map]
  dsimp only
  rw [hscan, Except.map, hofInt]

theorem neverOpens_decimal {number : α → Int} (hc : ¬(c = '-' ∨ c.isDigit = true)) :
    NeverOpens (Decimal number) c := by
  rintro a _ rfl
  obtain ⟨d, tail, hcons, hd⟩ := exists_cons_of_number (number_integer (number a))
  exact ⟨d, tail, hcons, isBlank_of_opens_number hd, ne_of_opens_number hd hc⟩

theorem reads_word16 : word16.Reads (Decimal fun w => w.toNat) :=
  reads_decimal (fun _ => by simp) (fun _ => by simp) fun w => by
    have := w.toNat_lt
    omega

theorem reads_word32 : word32.Reads (Decimal fun w => w.toNat) :=
  reads_decimal (fun _ => by simp) (fun _ => by simp) fun w => by
    have := w.toNat_lt
    omega

theorem reads_word64 : word64.Reads (Decimal fun w => w.toNat) :=
  reads_decimal (fun _ => by simp) (fun _ => by simp) fun w => by
    have := w.toNat_lt
    omega

theorem reads_signed32 : signed32.Reads (Decimal Int32.toInt) :=
  reads_decimal Int32.ofInt_toInt (fun n => n.le_toInt) fun n => by
    have := n.toInt_lt
    omega

theorem reads_text (read : String → Option α) (write : α → String) :
    (text read write).Reads (Quoted read) := by
  rintro a _ ⟨hread, hbody⟩ b rest hb -
  rename_i s body
  have hstring : stringBody true [] (body ++ '"' :: rest) = .ok (s, rest) := by
    rw [stringBody_literal hbody, List.reverse_nil, List.nil_append, String.ofList_toList]
  rw [List.cons_append, List.append_assoc, List.singleton_append, text]
  dsimp only
  rw [nextChar_append hb rfl]
  dsimp only [bind, Except.bind]
  rw [if_pos rfl, hstring]
  dsimp only
  rw [hread]
  rfl

theorem neverOpens_quoted {read : String → Option α} (hc : '"' ≠ c) :
    NeverOpens (Quoted read) c := by
  rintro a _ ⟨-, -⟩
  exact ⟨'"', _, rfl, rfl, hc⟩

theorem Reads.optional (h : codec.Reads Spells) (hopens : NeverOpens Spells 'n') :
    codec.optional.Reads (Nullable Spells) := by
  rintro _ _ (_ | hcs) b rest hb hrest
  · rw [List.cons_append, Codec.optional]
    dsimp only
    rw [nextChar_append hb rfl]
    rfl
  · rename_i a cs
    have hscan := h hcs hb hrest
    obtain ⟨d, tail, rfl, hblank, hne⟩ := hopens hcs
    rw [List.cons_append] at hscan ⊢
    rw [Codec.optional]
    dsimp only
    rw [nextChar_append hb hblank]
    dsimp only [bind, Except.bind]
    rw [if_neg hne, hscan]
    rfl

/-! ### Lists -/

/-- In front of an item stands no closing bracket, and its comma is taken. -/
theorem separator_append (first : Bool) (close : Char) (hclose : ',' ≠ close) (hb : Blanks b)
    (hb' : Blanks b') (hblank : isBlank c = false) (hne : c ≠ close) (rest : List Char)
    (hcs : cs = b ++ ((if first then [] else [',']) ++ (b' ++ c :: rest))) :
    ∃ d tail b'', nextChar cs = .ok (d, tail) ∧ d ≠ close ∧ Blanks b'' ∧
      separator first cs = .ok (b'' ++ c :: rest) := by
  subst hcs
  cases first with
  | true =>
      have hnext := nextChar_append (hb.append hb') hblank rest
      rw [List.append_assoc] at hnext
      refine ⟨c, rest, b ++ b', hnext, hne, hb.append hb', ?_⟩
      rw [List.append_assoc]
      rfl
  | false =>
      exact ⟨',', _, b', nextChar_append hb rfl _, hclose, hb', expect_append hb rfl _⟩

theorem scanItems_append (h : codec.Reads Spells) (hopens : NeverOpens Spells ']')
    (hcs : Sequence Spells first as cs) (hfuel : cs.length < fuel) (rest : List Char) :
    scanItems codec fuel first (cs ++ ']' :: rest) = .ok (as, rest) := by
  induction as generalizing first cs fuel with
  | nil =>
      obtain ⟨hb⟩ := hcs
      obtain _ | fuel := fuel
      · exact absurd hfuel (Nat.not_lt_zero _)
      rw [scanItems, nextChar_append hb rfl]
      rfl
  | cons a as ih =>
      obtain - | ⟨hb, hb', ha, hmore⟩ := hcs
      rename_i b b' item more
      obtain _ | fuel := fuel
      · exact absurd hfuel (Nat.not_lt_zero _)
      obtain ⟨c, tail, rfl, hblank, hne⟩ := hopens ha
      obtain ⟨d, tail', b'', hnext, hd, hb'', hseparator⟩ :=
        separator_append first ']' (by decide) hb hb' hblank hne (tail ++ (more ++ ']' :: rest)) rfl
      have hends : Ends (more ++ ']' :: rest) := hmore.ends (ends_cons (by decide))
      have hitem := h ha hb'' hends
      have hlen : more.length < fuel := by
        simp only [List.length_append, List.length_cons] at hfuel
        omega
      simp only [List.append_assoc, List.cons_append] at hitem ⊢
      rw [scanItems, hnext]
      dsimp only [bind, Except.bind]
      rw [if_neg hd, hseparator]
      dsimp only
      rw [hitem]
      dsimp only
      rw [ih hmore hlen]
      rfl

theorem Reads.list (h : codec.Reads Spells) (hopens : NeverOpens Spells ']') :
    (list codec).Reads (Listed Spells) := by
  rintro as _ ⟨hcs⟩ b rest hb -
  rename_i cs
  rw [List.cons_append, List.append_assoc, List.singleton_append, Codec.list]
  dsimp only
  rw [nextChar_append hb rfl]
  dsimp only [bind, Except.bind]
  rw [if_pos rfl]
  refine scanItems_append h hopens hcs ?_ rest
  simp only [List.length_append, List.length_cons]
  omega

end Codec

/-! ### Objects -/

namespace Field

variable {σ α μ : Type} {fields : List (Field σ)} {name : μ → String} {known : μ → Bool}
  {Spells : μ → List Char → Prop} {Sound : μ → Prop} {put : μ → σ → σ}
  {first : Bool} {fuel : Nat} {s : σ} {ms : List μ} {seen : List String} {b cs rest : List Char}

/-- No known name is given twice, nor given again after it has been seen, and every value is sound. -/
def Accepted (name : μ → String) (known : μ → Bool) (Sound : μ → Prop) (seen : List String)
    (ms : List μ) : Prop :=
  (seen ++ (ms.filter known).map name).Nodup ∧ ∀ m ∈ ms, Sound m

theorem accepted_cons_of_known {m : μ} (hm : known m = true) :
    Accepted name known Sound seen (m :: ms) ↔
      Sound m ∧ Accepted name known Sound (name m :: seen) ms := by
  rw [Accepted, Accepted, List.filter_cons_of_pos hm, List.map_cons, List.perm_middle.nodup_iff,
    List.forall_mem_cons]
  exact and_left_comm

theorem accepted_cons_of_unknown {m : μ} (hm : known m = false) (hsound : Sound m) :
    Accepted name known Sound seen (m :: ms) ↔ Accepted name known Sound seen ms := by
  rw [Accepted, Accepted, List.filter_cons_of_neg (by simp [hm]), List.forall_mem_cons,
    and_iff_right hsound]

theorem not_accepted_of_mem {n : String} (hn : n ∈ seen) :
    ¬Accepted name known Sound (n :: seen) ms :=
  fun h => (List.nodup_cons.mp h.1).1 (List.mem_append_left _ hn)

theorem foldl_put_of_perm {ms' : List μ}
    (hcomm : ∀ {m m'}, name m ≠ name m' → ∀ s, put m (put m' s) = put m' (put m s))
    (hperm : ms.Perm ms') (hnames : (ms.map name).Nodup) :
    ms.foldl (fun s m => put m s) s = ms'.foldl (fun s m => put m s) s := by
  refine hperm.foldl_eq' (fun m hm m' hm' s => ?_) s
  by_cases hname : name m = name m'
  · rw [List.inj_on_of_nodup_map hnames hm hm' hname]
  · exact hcomm (Ne.symm hname) s

variable [DecidablePred Sound]

instance : Decidable (Accepted name known Sound seen ms) :=
  inferInstanceAs (Decidable (_ ∧ _))

/-- A known member is read by the field of its name, if its value is sound, and puts that value into
the record. Any other member has no field and may hold any value. -/
structure Answers (fields : List (Field σ)) (name : μ → String) (known : μ → Bool)
    (Spells : μ → List Char → Prop) (Sound : μ → Prop) [DecidablePred Sound]
    (put : μ → σ → σ) : Prop where
  scan_of_known : ∀ m, known m = true → ∃ f, fields.find? (·.name = name m) = some f ∧
    ∀ ⦃cs b rest⦄, Spells m cs → Blanks b → Ends rest →
      f.scan (b ++ (cs ++ rest)) = if Sound m then .ok (put m, rest) else .error .mismatch
  skipped_of_unknown : ∀ m, known m = false → ∀ ⦃cs⦄, Spells m cs →
    name m ∉ fields.map Field.name ∧ WellFormed cs
  sound_of_unknown : ∀ m, known m = false → Sound m
  put_of_unknown : ∀ m, known m = false → put m = id

theorem find?_eq_none {n : String} (h : n ∉ fields.map Field.name) :
    fields.find? (·.name = n) = none := by
  refine List.find?_eq_none.mpr fun f hf hname => h ?_
  exact List.mem_map.mpr ⟨f, hf, of_decide_eq_true hname⟩

theorem scan_of {codec : Codec α} {Spells : α → List Char → Prop} (h : codec.Reads Spells)
    (field : String) (get : σ → α) (set : α → σ → σ) {a : α} (ha : Spells a cs) (hb : Blanks b)
    (hrest : Ends rest) :
    (Field.of field codec get set).scan (b ++ (cs ++ rest)) = .ok (set a, rest) := by
  rw [Field.of]
  dsimp only
  rw [h ha hb hrest]
  rfl

theorem memberName_literal {text body value member : List Char} (hname : Literal text body)
    (h : Member body value member) (hb : Blanks b) (rest : List Char) :
    ∃ b₁ b₂, Blanks b₁ ∧ Blanks b₂ ∧ memberName true (b ++ (member ++ rest)) =
      .ok (String.ofList text, b₁ ++ ':' :: (b₂ ++ (value ++ rest))) := by
  obtain ⟨hb₁, hb₂⟩ := h
  rename_i b₁ b₂
  refine ⟨b₁, b₂, hb₁, hb₂, ?_⟩
  simp only [List.cons_append, List.append_assoc]
  rw [memberName, expect_append hb rfl]
  dsimp only [bind, Except.bind]
  rw [stringBody_literal hname, List.reverse_nil, List.nil_append]

theorem memberName_append {m : μ} (h : Named name Spells m cs) (hb : Blanks b)
    (rest : List Char) : ∃ b₁ b₂ value, Blanks b₁ ∧ Blanks b₂ ∧ Spells m value ∧
      memberName true (b ++ (cs ++ rest)) = .ok (name m, b₁ ++ ':' :: (b₂ ++ (value ++ rest))) := by
  obtain ⟨hname, hvalue, hmember⟩ := h
  obtain ⟨b₁, b₂, hb₁, hb₂, hread⟩ := memberName_literal hname hmember hb rest
  rw [String.ofList_toList] at hread
  exact ⟨b₁, b₂, _, hb₁, hb₂, hvalue, hread⟩

/-- What is done about a member once its name has been read. -/
theorem scanMembers_named {b' member : List Char} (fields : List (Field σ)) (first : Bool)
    (fuel : Nat) (seen : List String) (s : σ) (hquote : ∃ tail, member = '"' :: tail)
    (hb : Blanks b) (hb' : Blanks b') (rest : List Char)
    (hcs : cs = b ++ ((if first then [] else [',']) ++ (b' ++ (member ++ rest)))) :
    ∃ b'', Blanks b'' ∧
      (∀ e, memberName true (b'' ++ (member ++ rest)) = .error e →
        scanMembers fields (fuel + 1) first seen s cs = .error e) ∧
      ∀ n b₁ behind, Blanks b₁ →
        memberName true (b'' ++ (member ++ rest)) = .ok (n, b₁ ++ ':' :: behind) →
        (∀ f, fields.find? (·.name = n) = some f →
          scanMembers fields (fuel + 1) first seen s cs =
            if n ∈ seen then .error .mismatch
            else f.scan behind >>= fun r =>
              scanMembers fields fuel false (n :: seen) (r.1 s) r.2) ∧
        (fields.find? (·.name = n) = none →
          scanMembers fields (fuel + 1) first seen s cs =
            Scan.value behind >>= fun r => scanMembers fields fuel false seen s r.2) := by
  obtain ⟨tail, rfl⟩ := hquote
  obtain ⟨d, tail', b'', hnext, hd, hb'', hseparator⟩ :=
    Codec.separator_append (c := '"') first '\x7d' (by decide) hb hb' rfl (by decide)
      (tail ++ rest) hcs
  rw [← List.cons_append] at hseparator
  refine ⟨b'', hb'', fun e hname => ?_, fun n b₁ behind hb₁ hname =>
    ⟨fun f hfind => ?_, fun hfind => ?_⟩⟩
  · simp only [scanMembers, bind, Except.bind, hnext, if_neg hd, hseparator, hname]
  · have hcolon := expect_append hb₁ (c := ':') rfl behind
    simp only [scanMembers, bind, Except.bind, hnext, if_neg hd, hseparator, hname, hfind, hcolon]
  · have hcolon := expect_append hb₁ (c := ':') rfl behind
    simp only [scanMembers, bind, Except.bind, hnext, if_neg hd, hseparator, hname, hfind, hcolon]

/-- The members are put in one by one. One whose name has been seen, or whose value is not sound, is
where reading stops. -/
theorem scanMembers_append (h : Answers fields name known Spells Sound put)
    (hcs : Sequence (Named name Spells) first ms cs) (hfuel : cs.length < fuel)
    (hseen : seen.Nodup) (rest : List Char) :
    scanMembers fields fuel first seen s (cs ++ '\x7d' :: rest) =
      if Accepted name known Sound seen ms then .ok (ms.foldl (fun s m => put m s) s, rest)
      else .error .mismatch := by
  induction ms generalizing first seen s cs fuel with
  | nil =>
      obtain ⟨hb⟩ := hcs
      obtain _ | fuel := fuel
      · exact absurd hfuel (Nat.not_lt_zero _)
      rw [scanMembers, nextChar_append hb rfl, if_pos ⟨by simpa using hseen, nofun⟩]
      rfl
  | cons m ms ih =>
      obtain - | ⟨hb, hb', hm, hmore⟩ := hcs
      rename_i b b' member more
      obtain _ | fuel := fuel
      · exact absurd hfuel (Nat.not_lt_zero _)
      have hquote : ∃ tail, member = '"' :: tail := by
        obtain ⟨-, -, -, -⟩ := hm
        exact ⟨_, rfl⟩
      obtain ⟨b'', hb'', -, hread⟩ := scanMembers_named fields first fuel seen s hquote hb hb'
        (more ++ '\x7d' :: rest) rfl
      obtain ⟨b₁, b₂, value, hb₁, hb₂, hvalue, hname⟩ :=
        memberName_append hm hb'' (more ++ '\x7d' :: rest)
      obtain ⟨hfound, hmissed⟩ := hread _ _ _ hb₁ hname
      have hends : Ends (more ++ '\x7d' :: rest) := hmore.ends (ends_cons (by decide))
      have hlen : more.length < fuel := by
        obtain ⟨tail, rfl⟩ := hquote
        simp only [List.length_append, List.length_cons] at hfuel
        omega
      simp only [List.append_assoc]
      cases hknown : known m with
      | true =>
          obtain ⟨f, hfind, hscan⟩ := h.scan_of_known m hknown
          rw [hfound f hfind]
          -- The name alone decides whether a member comes again; its value is not looked at then.
          by_cases hmem : name m ∈ seen
          · rw [if_pos hmem, if_neg]
            exact fun haccepted =>
              not_accepted_of_mem hmem ((accepted_cons_of_known hknown).mp haccepted).2
          rw [if_neg hmem, hscan hvalue hb₂ hends]
          by_cases hsound : Sound m
          · rw [if_pos hsound]
            dsimp only [bind, Except.bind]
            rw [ih hmore hlen (List.nodup_cons.mpr ⟨hmem, hseen⟩)]
            refine if_congr ?_ rfl rfl
            rw [accepted_cons_of_known hknown, and_iff_right hsound]
          · rw [if_neg hsound, if_neg]
            · rfl
            · exact fun haccepted => hsound ((accepted_cons_of_known hknown).mp haccepted).1
      | false =>
          have hsound := h.sound_of_unknown m hknown
          obtain ⟨hfield, hskipped⟩ := h.skipped_of_unknown m hknown hvalue
          obtain ⟨v, hv⟩ := value_append hskipped hb₂ hends
          rw [hmissed (find?_eq_none hfield), hv]
          dsimp only [bind, Except.bind]
          rw [ih hmore hlen hseen, List.foldl_cons, h.put_of_unknown m hknown, id]
          exact if_congr (accepted_cons_of_unknown hknown hsound).symm rfl rfl

theorem scan_record (h : Answers fields name known Spells Sound put)
    (hcs : Object name Spells ms cs) (hb : Blanks b) (rest : List Char) :
    (Codec.record fields s).scan (b ++ (cs ++ rest)) =
      if Accepted name known Sound [] ms then .ok (ms.foldl (fun s m => put m s) s, rest)
      else .error .mismatch := by
  obtain ⟨hcs⟩ := hcs
  rename_i cs
  rw [List.cons_append, List.append_assoc, List.singleton_append, Codec.record]
  dsimp only
  rw [nextChar_append hb rfl]
  dsimp only [bind, Except.bind]
  rw [if_pos rfl]
  refine scanMembers_append h hcs ?_ List.nodup_nil rest
  simp only [List.length_append, List.length_cons]
  omega

end Field

/-! ### What is printed -/

namespace Grammar

variable {α μ : Type} {Spells : α → List Char → Prop} {a : α} {as : List α} {cs : List Char}

/-- A sequence may go on behind a comma. -/
theorem Sequence.comma (h : Sequence Spells true (a :: as) cs) :
    Sequence Spells false (a :: as) (',' :: cs) := by
  obtain - | ⟨hb, hb', ha, hmore⟩ := h
  have h : Sequence Spells false (a :: as) _ := .cons blanks_nil (hb.append hb') ha hmore
  simpa using h

/-- A first item without blanks. -/
theorem Sequence.head {more : List Char} (ha : Spells a cs) (h : Sequence Spells false as more) :
    Sequence Spells true (a :: as) (cs ++ more) :=
  .cons blanks_nil blanks_nil ha h

theorem exists_itemsChars {toValue : α → Json} (h : ∀ a ∈ as, Spells a (toValue a).chars) :
    ∃ cs, Json.itemsChars (as.map toValue) = cs ++ [']'] ∧ Sequence Spells true as cs := by
  induction as with
  | nil => exact ⟨[], rfl, .nil blanks_nil⟩
  | cons a as ih =>
      have ha := h a (List.mem_cons_self ..)
      obtain ⟨cs, hcs, hmore⟩ := ih fun a ha => h a (List.mem_cons_of_mem _ ha)
      cases as with
      | nil =>
          refine ⟨(toValue a).chars ++ [], ?_, .head ha (.nil blanks_nil)⟩
          rw [List.append_nil, List.map_singleton, Json.itemsChars]
      | cons a' as =>
          refine ⟨(toValue a).chars ++ ',' :: cs, ?_, .head ha hmore.comma⟩
          rw [List.append_assoc, List.cons_append, ← hcs, List.map_cons, List.map_cons,
            Json.itemsChars, ← List.map_cons]
          exact nofun

theorem listed_chars {toValue : α → Json} (h : ∀ a ∈ as, Spells a (toValue a).chars) :
    Listed Spells as (Json.array (as.map toValue)).chars := by
  obtain ⟨cs, hcs, hsequence⟩ := exists_itemsChars h
  rw [Json.chars, hcs]
  exact .intro hsequence

variable {name : μ → String} {SpellsMember : μ → List Char → Prop} {m : μ} {ms : List μ}

theorem named_quoted (h : SpellsMember m cs) :
    Named name SpellsMember m (Json.quoted (name m) ++ ':' :: cs) := by
  have hmember := Named.intro (Json.literal_escaped (name m).toList) h (.intro blanks_nil blanks_nil)
  simpa [Json.quoted] using hmember

theorem exists_membersChars {pairs : List (String × Json)}
    (h : List.Forall₂ (fun m p => p.1 = name m ∧ SpellsMember m p.2.chars) ms pairs) :
    ∃ cs, Json.membersChars pairs = cs ++ ['\x7d'] ∧
      Sequence (Named name SpellsMember) true ms cs := by
  induction h with
  | nil => exact ⟨[], rfl, .nil blanks_nil⟩
  | @cons m p ms pairs hp hmore ih =>
      obtain ⟨n, v⟩ := p
      obtain ⟨rfl, hvalue⟩ := hp
      obtain ⟨cs, hcs, hsequence⟩ := ih
      have hnamed : Named name SpellsMember m _ := named_quoted hvalue
      cases hmore with
      | nil =>
          refine ⟨_ ++ [], ?_, .head hnamed (.nil blanks_nil)⟩
          rw [List.append_nil, Json.membersChars]
      | cons =>
          refine ⟨_ ++ ',' :: cs, ?_, .head hnamed hsequence.comma⟩
          rw [Json.membersChars, hcs]
          · simp
          · exact nofun

theorem object_chars {pairs : List (String × Json)}
    (h : List.Forall₂ (fun m p => p.1 = name m ∧ SpellsMember m p.2.chars) ms pairs) :
    Object name SpellsMember ms (Json.object pairs).chars := by
  obtain ⟨cs, hcs, hsequence⟩ := exists_membersChars h
  rw [Json.chars, hcs]
  exact .intro hsequence

end Grammar

end AudioIntake
