import AudioIntake.Proofs.Json.Tokens

/-!
# Values are skipped whole

The reader passes over any well-formed value and stops right behind it. The stack of frames takes the
place of a recursion, so the invariant says what reading one value does to the stack: it is the same
as before, with a value that waits to be put into its innermost frame.
-/

namespace AudioIntake

open Grammar

namespace Scan

variable {c : Char} {u high : Nat} {b cs ds body value read rest : List Char}
  {items : List (List Char)} {members : List (List Char × List Char)} {frame frame' : Frame}
  {frames : List Frame} {v w : Json}

/-! ### Strings -/

/-- A second surrogate is only ever taken from an escape of its own. -/
theorem body_of_lowSurrogate {r : Char × List Char} (h : Body cs)
    (hr : lowSurrogate high (cs ++ '"' :: rest) = .ok r) :
    ∃ cs', Body cs' ∧ cs'.length ≤ cs.length ∧ r.2 = cs' ++ '"' :: rest := by
  cases h with
  | nil => cases hr
  | plain hc =>
      rw [lowSurrogate, List.cons_append, word, if_neg hc.2.1] at hr
      cases hr
  | @short form _ _ hc =>
      have hform : form ≠ 'u' := by
        rintro rfl
        simp [shortForms] at hc
      rw [lowSurrogate, List.cons_append, word, if_pos rfl, List.cons_append, word,
        if_neg hform] at hr
      cases hr
  | @unit u ds cs hds h =>
      rw [List.cons_append, List.cons_append, List.append_assoc, lowSurrogate_append hds] at hr
      split at hr
      · obtain rfl := Except.ok.inj hr
        refine ⟨cs, h, ?_, rfl⟩
        simp only [List.length_cons, List.length_append]
        omega
      · cases hr

theorem escape_body (hds : CodeUnit u ds) (h : Body cs) (rest : List Char) :
    ∃ c cs', Body cs' ∧ cs'.length ≤ cs.length ∧
      escape false ('u' :: (ds ++ (cs ++ '"' :: rest))) = .ok (c, cs' ++ '"' :: rest) := by
  rw [escape, if_pos rfl, unicodeEscape, codeUnit_append hds]
  dsimp only
  split
  · exact ⟨replacement, cs, h, Nat.le_refl _, rfl⟩
  split
  · split
    · rename_i r hlow
      obtain ⟨cs', h', hlen, hrest⟩ := body_of_lowSurrogate h hlow
      exact ⟨r.1, cs', h', hlen, by rw [← hrest]⟩
    · exact ⟨replacement, cs, h, Nat.le_refl _, rfl⟩
  · exact ⟨Char.ofNat u, cs, h, Nat.le_refl _, rfl⟩

/-- The induction is on the length, since an escape may take the one behind it along. -/
theorem stringBody_body (h : Body body) (read rest : List Char) :
    ∃ s, stringBody false read (body ++ '"' :: rest) = .ok (s, rest) := by
  induction hlen : body.length using Nat.strong_induction_on generalizing body read with
  | _ n ih =>
      cases h with
      | nil => exact ⟨_, stringBody_quote false read rest⟩
      | plain hc h =>
          rw [List.length_cons] at hlen
          rw [List.cons_append, stringBody_plain hc]
          exact ih _ (by omega) h _ rfl
      | short hc h =>
          simp only [List.length_cons] at hlen
          rw [List.cons_append, List.cons_append, stringBody_escape (escape_short hc _)]
          exact ih _ (by omega) h _ rfl
      | @unit _ _ cs hds h =>
          obtain ⟨c, cs', h', hle, hescape⟩ := escape_body hds h rest
          simp only [List.length_cons, List.length_append] at hlen
          rw [List.cons_append, List.cons_append, List.append_assoc, stringBody_escape hescape]
          exact ih _ (by omega) h' _ rfl

/-! ### The stack of frames -/

theorem resume_of_complete (h : opening cs = .ok (.complete v, rest)) :
    resume frames none cs = resume frames (some v) rest := by
  rw [resume]
  split
  all_goals
    rename_i heq
    rw [h] at heq
    cases heq
  rfl

theorem resume_of_enter (h : opening cs = .ok (.enter frame, rest)) :
    resume frames none cs = resume (frame :: frames) none rest := by
  rw [resume]
  split
  all_goals
    rename_i heq
    rw [h] at heq
    cases heq
  rfl

theorem resume_of_closed (h : closing frame v cs = .ok (.complete w, rest)) :
    resume (frame :: frames) (some v) cs = resume frames (some w) rest := by
  rw [resume]
  split
  all_goals
    rename_i heq
    rw [h] at heq
    cases heq
  rfl

theorem resume_of_next (h : closing frame v cs = .ok (.enter frame', rest)) :
    resume (frame :: frames) (some v) cs = resume (frame' :: frames) none rest := by
  rw [resume]
  split
  all_goals
    rename_i heq
    rw [h] at heq
    cases heq
  rfl

/-- Reading the text as a value leaves the stack as it was. -/
def Passed (cs : List Char) : Prop :=
  ∀ (frames : List Frame) (b rest : List Char), Blanks b → Ends rest →
    ∃ v, resume frames none (b ++ (cs ++ rest)) = resume frames (some v) rest

/-! ### Scalars -/

theorem passed_of_complete
    (h : ∀ b rest, Blanks b → Ends rest →
      ∃ v, opening (b ++ (cs ++ rest)) = .ok (.complete v, rest)) : Passed cs := by
  intro frames b rest hb hrest
  obtain ⟨v, hv⟩ := h b rest hb hrest
  exact ⟨v, resume_of_complete hv⟩

theorem passed_null : Passed ['n', 'u', 'l', 'l'] :=
  passed_of_complete fun b rest hb _ => ⟨.null, by
    rw [List.cons_append, opening, nextChar_append hb rfl]
    rfl⟩

theorem passed_true : Passed ['t', 'r', 'u', 'e'] :=
  passed_of_complete fun b rest hb _ => ⟨.bool true, by
    rw [List.cons_append, opening, nextChar_append hb rfl]
    rfl⟩

theorem passed_false : Passed ['f', 'a', 'l', 's', 'e'] :=
  passed_of_complete fun b rest hb _ => ⟨.bool false, by
    rw [List.cons_append, opening, nextChar_append hb rfl]
    rfl⟩

theorem passed_string (h : Body body) : Passed ('"' :: (body ++ ['"'])) :=
  passed_of_complete fun b rest hb _ => by
    obtain ⟨s, hs⟩ := stringBody_body h [] rest
    refine ⟨.string s, ?_⟩
    rw [List.cons_append, List.append_assoc, List.singleton_append, opening,
      nextChar_append hb rfl]
    change (stringBody false [] (body ++ '"' :: rest) >>= _) = _
    rw [hs]
    rfl

theorem passed_number (h : Number cs) : Passed cs :=
  passed_of_complete fun b rest hb hrest => by
    obtain ⟨n, hn⟩ := numeral_append .malformed h hrest
    obtain ⟨c, tail, rfl, hc⟩ := exists_cons_of_number h
    have hne {d : Char} : ¬(d = '-' ∨ d.isDigit = true) → c ≠ d := ne_of_opens_number hc
    refine ⟨.number n, ?_⟩
    rw [List.cons_append, opening, nextChar_append hb (isBlank_of_opens_number hc)]
    dsimp only [bind, Except.bind]
    rw [if_neg (hne (by decide)), if_neg (hne (by decide)), if_neg (hne (by decide)),
      if_neg (hne (by decide)), if_neg (hne (by decide)), if_neg (hne (by decide)), if_pos hc,
      ← List.cons_append, hn]
    rfl

/-! ### Arrays -/

/-- The first character of a value closes no array. -/
theorem exists_cons_of_wellFormed (h : WellFormed cs) :
    ∃ c tail, cs = c :: tail ∧ isBlank c = false ∧ c ≠ ']' := by
  cases h with
  | number h =>
      obtain ⟨c, tail, rfl, hc⟩ := exists_cons_of_number h
      exact ⟨c, tail, rfl, isBlank_of_opens_number hc, ne_of_opens_number hc (by decide)⟩
  | _ => exact ⟨_, _, rfl, rfl, by decide⟩

/-- Behind a value inside an array the rest of the array is passed over. -/
theorem resume_items (hpassed : ∀ item ∈ items, Passed item) (h : Sequence Eq false items cs)
    (rest : List Char) (frames : List Frame) (values : List Json) (v : Json) :
    ∃ w, resume (.array values :: frames) (some v) (cs ++ ']' :: rest) =
      resume frames (some w) rest := by
  induction items generalizing cs values v with
  | nil =>
      obtain ⟨hb⟩ := h
      refine ⟨.array (v :: values).reverse, resume_of_closed ?_⟩
      rw [closing, nextChar_append hb rfl]
      rfl
  | cons item items ih =>
      obtain - | ⟨hb, hb', rfl, h⟩ := h
      rename_i b b' more
      have hnext : closing (.array values) v (b ++ ',' :: (b' ++ (item ++ (more ++ ']' :: rest)))) =
          .ok (.enter (.array (v :: values)), b' ++ (item ++ (more ++ ']' :: rest))) := by
        rw [closing, nextChar_append hb rfl]
        rfl
      obtain ⟨w, hw⟩ := hpassed item (List.mem_cons_self ..) (.array (v :: values) :: frames) b'
        (more ++ ']' :: rest) hb' (h.ends (ends_cons (by decide)))
      simp only [Bool.false_eq_true, if_false, List.append_assoc, List.cons_append, List.nil_append]
      rw [resume_of_next hnext, hw]
      exact ih (fun item hitem => hpassed item (List.mem_cons_of_mem _ hitem)) h (v :: values) w

theorem passed_array (h : ∀ item ∈ items, WellFormed item) (hpassed : ∀ item ∈ items, Passed item)
    (hcs : Sequence Eq true items cs) : Passed ('[' :: (cs ++ [']'])) := by
  intro frames b rest hb _
  simp only [List.cons_append, List.append_assoc, List.nil_append]
  cases hcs with
  | nil hblanks =>
      refine ⟨.array [], resume_of_complete ?_⟩
      rw [opening, nextChar_append hb rfl]
      change openArray _ = _
      rw [openArray, nextChar_append hblanks rfl]
      rfl
  | @cons _ item items b₁ b₂ _ more hb₁ hb₂ ha hmore =>
      -- The first item has no comma in front, so the array is entered with its text untouched.
      subst ha
      obtain ⟨c, tail, hcons, hblank, hclose⟩ :=
        exists_cons_of_wellFormed (h item (List.mem_cons_self ..))
      have henter : opening (b ++ '[' :: ((b₁ ++ b₂) ++ (item ++ (more ++ ']' :: rest)))) =
          .ok (.enter (.array []), (b₁ ++ b₂) ++ (item ++ (more ++ ']' :: rest))) := by
        rw [opening, nextChar_append hb rfl]
        change openArray _ = _
        rw [openArray, hcons, List.cons_append, nextChar_append (hb₁.append hb₂) hblank]
        exact if_neg hclose
      obtain ⟨w, hw⟩ := hpassed item (List.mem_cons_self ..) (.array [] :: frames) (b₁ ++ b₂)
        (more ++ ']' :: rest) (hb₁.append hb₂) (hmore.ends (ends_cons (by decide)))
      obtain ⟨v, hv⟩ := resume_items
        (fun item hitem => hpassed item (List.mem_cons_of_mem _ hitem)) hmore rest frames [] w
      refine ⟨v, ?_⟩
      simp only [if_true, List.nil_append, List.append_assoc] at henter hw ⊢
      rw [resume_of_enter henter, hw, hv]

/-! ### Objects -/

theorem memberStart_append {member : List Char} (hbody : Body body)
    (h : Member body value member) (hb : Blanks b) (rest : List Char) :
    ∃ name b', Blanks b' ∧
      memberStart false (b ++ (member ++ rest)) = .ok (name, b' ++ (value ++ rest)) := by
  obtain ⟨hcolon, hvalue⟩ := h
  rename_i b₁ b₂
  obtain ⟨name, hname⟩ := stringBody_body hbody [] (b₁ ++ ':' :: (b₂ ++ (value ++ rest)))
  refine ⟨name, b₂, hvalue, ?_⟩
  simp only [List.cons_append, List.append_assoc]
  rw [memberStart, memberName, expect_append hb rfl]
  dsimp only [bind, Except.bind]
  rw [hname]
  dsimp only
  rw [expect_append hcolon rfl]
  rfl

/-- Behind a value inside an object the rest of the object is passed over. -/
theorem resume_members (hnames : ∀ m ∈ members, Body m.1) (hpassed : ∀ m ∈ members, Passed m.2)
    (h : Sequence (fun m => Member m.1 m.2) false members cs) (rest : List Char)
    (frames : List Frame) (values : List (String × Json)) (name : String) (v : Json) :
    ∃ w, resume (.object values name :: frames) (some v) (cs ++ '\x7d' :: rest) =
      resume frames (some w) rest := by
  induction members generalizing cs values name v with
  | nil =>
      obtain ⟨hb⟩ := h
      refine ⟨.object ((name, v) :: values).reverse, resume_of_closed ?_⟩
      rw [closing, nextChar_append hb rfl]
      rfl
  | cons m members ih =>
      obtain - | ⟨hb, hb', hm, h⟩ := h
      rename_i b b' member more
      obtain ⟨next, b₂, hb₂, hstart⟩ := memberStart_append (hnames m (List.mem_cons_self ..)) hm hb'
        (more ++ '\x7d' :: rest)
      have hnext : closing (.object values name) v
            (b ++ ',' :: (b' ++ (member ++ (more ++ '\x7d' :: rest)))) =
          .ok (.enter (.object ((name, v) :: values) next),
            b₂ ++ (m.2 ++ (more ++ '\x7d' :: rest))) := by
        rw [closing, nextChar_append hb rfl]
        change (memberStart false _ >>= _) = _
        rw [hstart]
        rfl
      obtain ⟨w, hw⟩ := hpassed m (List.mem_cons_self ..)
        (.object ((name, v) :: values) next :: frames) b₂ (more ++ '\x7d' :: rest) hb₂
        (h.ends (ends_cons (by decide)))
      simp only [Bool.false_eq_true, if_false, List.append_assoc, List.cons_append, List.nil_append]
      rw [resume_of_next hnext, hw]
      exact ih (fun m hm => hnames m (List.mem_cons_of_mem _ hm))
        (fun m hm => hpassed m (List.mem_cons_of_mem _ hm)) h ((name, v) :: values) next w

theorem passed_object (hnames : ∀ m ∈ members, Body m.1) (hpassed : ∀ m ∈ members, Passed m.2)
    (hcs : Sequence (fun m => Member m.1 m.2) true members cs) :
    Passed ('\x7b' :: (cs ++ ['\x7d'])) := by
  intro frames b rest hb _
  simp only [List.cons_append, List.append_assoc, List.nil_append]
  cases hcs with
  | nil hblanks =>
      refine ⟨.object [], resume_of_complete ?_⟩
      rw [opening, nextChar_append hb rfl]
      change openObject _ = _
      rw [openObject, nextChar_append hblanks rfl]
      rfl
  | @cons _ m members b₁ b₂ member more hb₁ hb₂ hm hmore =>
      obtain ⟨name, b₃, hb₃, hstart⟩ := memberStart_append (hnames m (List.mem_cons_self ..)) hm
        (hb₁.append hb₂) (more ++ '\x7d' :: rest)
      have henter : opening (b ++ '\x7b' :: ((b₁ ++ b₂) ++ (member ++ (more ++ '\x7d' :: rest)))) =
          .ok (.enter (.object [] name), b₃ ++ (m.2 ++ (more ++ '\x7d' :: rest))) := by
        rw [opening, nextChar_append hb rfl]
        change openObject _ = _
        -- The quote in front of a name closes no object.
        obtain ⟨tail, hquote⟩ : ∃ tail, member = '"' :: tail := by
          obtain ⟨-, -⟩ := hm
          exact ⟨_, rfl⟩
        rw [openObject, hquote, List.cons_append, nextChar_append (hb₁.append hb₂) rfl]
        change (memberStart false _ >>= _) = _
        rw [← List.cons_append, ← hquote, hstart]
        rfl
      obtain ⟨w, hw⟩ := hpassed m (List.mem_cons_self ..) (.object [] name :: frames) b₃
        (more ++ '\x7d' :: rest) hb₃ (hmore.ends (ends_cons (by decide)))
      obtain ⟨v, hv⟩ := resume_members (fun m hm => hnames m (List.mem_cons_of_mem _ hm))
        (fun m hm => hpassed m (List.mem_cons_of_mem _ hm)) hmore rest frames [] name w
      refine ⟨v, ?_⟩
      simp only [if_true, List.nil_append, List.append_assoc] at henter hw ⊢
      rw [resume_of_enter henter, hw, hv]

/-! ### Any value -/

theorem passed_of_wellFormed (h : WellFormed cs) : Passed cs := by
  induction h with
  | null => exact passed_null
  | true => exact passed_true
  | false => exact passed_false
  | number h => exact passed_number h
  | string h => exact passed_string h
  | array h hcs ih => exact passed_array h ih hcs
  | object hnames _ hcs ih => exact passed_object hnames ih hcs

theorem value_append (h : WellFormed cs) (hb : Blanks b) (hrest : Ends rest) :
    ∃ v, Scan.value (b ++ (cs ++ rest)) = .ok (v, rest) := by
  obtain ⟨v, hv⟩ := passed_of_wellFormed h [] b rest hb hrest
  refine ⟨v, ?_⟩
  rw [Scan.value, hv, resume]

end Scan

end AudioIntake
