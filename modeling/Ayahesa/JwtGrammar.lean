import Ayahesa.JwtToken

/-! # Which tokens are accepted

Acceptance is decided on the fields that the splitter returns. The number of dots between
the parts and anything behind a fourth dot do not matter; header, payload and signature do. -/
namespace JwtGrammar

open CMemory KoreApi DelimitedFields Base64urlCodec JwtToken

variable {E : Library}

/-- The three parts with `m + 1` and `n + 1` dots between them, and what follows. -/
def layout (m n : ℕ) (P S rest : Bytes) : Bytes :=
  HEADER_ENCODED ++
    (List.replicate (m + 1) dot ++ (P ++ (List.replicate (n + 1) dot ++ (S ++ rest))))

private theorem HEADER_ENCODED_field : dot ∉ HEADER_ENCODED ∧ HEADER_ENCODED ≠ [] := by decide

theorem closed_replicate (m : ℕ) (s : Bytes) : Closed dot (List.replicate (m + 1) dot ++ s) :=
  Or.inr ⟨List.replicate m dot ++ s, by simp [List.replicate_succ]⟩

theorem fields_layout {P S rest : Bytes} (m n : ℕ) (hP : dot ∉ P) (hP' : P ≠ []) (hS : dot ∉ S)
    (hS' : S ≠ []) (hr : Closed dot rest) :
    fields dot (layout m n P S rest) = HEADER_ENCODED :: P :: S :: fields dot rest := by
  rw [layout, fields_word HEADER_ENCODED_field.1 HEADER_ENCODED_field.2 (closed_replicate m _),
    fields_replicate, fields_word hP hP' (closed_replicate n _), fields_replicate,
    fields_word hS hS' hr]

theorem layout_of_fields {token P S : Bytes} {more : List Bytes}
    (h : fields dot token = HEADER_ENCODED :: P :: S :: more) (hhead : token.getD 0 0 = 101) :
    ∃ m n rest, token = layout m n P S rest ∧ P ≠ [] ∧ dot ∉ P ∧ S ≠ [] ∧ dot ∉ S ∧
      Closed dot rest := by
  obtain ⟨k, rest₀, rfl, _, _, hr₀, h₀⟩ := fields_eq_cons h
  obtain ⟨m, rest₁, rfl, hP', hP, hr₁, h₁⟩ := hr₀.fields_eq_cons h₀
  obtain ⟨n, rest₂, rfl, hS', hS, hr₂, _⟩ := hr₁.fields_eq_cons h₁
  cases k with
  | zero => exact ⟨m, n, rest₂, rfl, hP', hP, hS', hS, hr₂⟩
  | succ k =>
    have hdot : dot = 101 := by simpa [List.replicate_succ] using hhead
    exact absurd hdot (by decide)

theorem jwt_verify_congr {t₁ t₂ : ℤ} {s s' : Bytes} (jwt : Jwt) (h₀ : s.getD 0 0 = s'.getD 0 0)
    (h₁ : s.getD 1 0 = s'.getD 1 0) (hf : (fields dot s).take 3 = (fields dot s').take 3) :
    jwt_verify E t₁ t₂ (some s) jwt = jwt_verify E t₁ t₂ (some s') jwt := by
  simp only [jwt_verify, not_null, bind, Except.bind, E.kore.split_string_fields, h₀, h₁, hf]

theorem jwt_verify_layout {P S rest rest' : Bytes} (t₁ t₂ : ℤ) (m n m' n' : ℕ) (jwt : Jwt)
    (hP : dot ∉ P) (hP' : P ≠ []) (hS : dot ∉ S) (hS' : S ≠ []) (hr : Closed dot rest)
    (hr' : Closed dot rest') :
    jwt_verify E t₁ t₂ (some (layout m n P S rest)) jwt =
      jwt_verify E t₁ t₂ (some (layout m' n' P S rest')) jwt := by
  apply jwt_verify_congr
  · rfl
  · rfl
  · rw [fields_layout m n hP hP' hS hS' hr, fields_layout m' n' hP hP' hS hS' hr']
    rfl

/-- An accepted token consists of the header, a payload and the signature that the key gives
for it; the payload determines the signature, and only the dots and the rest are free. -/
theorem jwt_verify_grammar (E : Library) (t₁ t₂ : ℤ) {token : Bytes} {jwt jwt' : Jwt}
    (h0 : 0 ∉ token) (h : jwt_verify E t₁ t₂ (some token) jwt = .ok (true, jwt')) :
    ∃ raw P S m n rest, E.kore.base64_decode E.app_key = some raw ∧
      token = layout m n P S rest ∧ P ≠ [] ∧ dot ∉ P ∧ S ≠ [] ∧ dot ∉ S ∧ Closed dot rest ∧
      S = text (E.hmac_sha256 raw (HEADER_ENCODED ++ [dot] ++ P)) ∧
      ∀ m' n' rest', Closed dot rest' →
        jwt_verify E t₁ t₂ (some (layout m' n' P S rest')) jwt = .ok (true, jwt') := by
  obtain ⟨raw, P, S, ha⟩ := jwt_verify_accepts h0 h
  obtain ⟨more, hf⟩ := ha.fields
  obtain ⟨m, n, rest, rfl, hP', hP, hS', hS, hr⟩ := layout_of_fields hf ha.head
  refine ⟨raw, P, S, m, n, rest, ha.key, rfl, hP', hP, hS', hS, hr, ha.signature, ?_⟩
  intro m' n' rest' hr'
  rw [← jwt_verify_layout t₁ t₂ m n m' n' jwt hP hP' hS hS' hr hr']
  exact h

theorem jwt_verify_grammar_reference :
    ∃ raw P S m n rest, reference.kore.base64_decode reference.app_key = some raw ∧
      layout 0 0 reference_P reference_S [] = layout m n P S rest ∧ P ≠ [] ∧ dot ∉ P ∧
      S ≠ [] ∧ dot ∉ S ∧ Closed dot rest ∧
      S = text (reference.hmac_sha256 raw (HEADER_ENCODED ++ [dot] ++ P)) ∧
      ∀ m' n' rest', Closed dot rest' →
        jwt_verify reference 1000 1060 (some (layout m' n' P S rest')) reference_jwt =
          .ok (true, reference_jwt) :=
  @jwt_verify_grammar reference 1000 1060 (layout 0 0 reference_P reference_S []) reference_jwt
    reference_jwt (by decide +kernel) (by decide +kernel)

/-- A trailing dot is accepted. -/
theorem jwt_verify_not_exact :
    ¬ ∀ (E : Library) (t₁ t₂ : ℤ) (token : Bytes) (jwt jwt' : Jwt), 0 ∉ token →
      jwt_verify E t₁ t₂ (some token) jwt = .ok (true, jwt') →
      ∃ P S, token = HEADER_ENCODED ++ [dot] ++ P ++ [dot] ++ S ∧ P ≠ [] ∧ S ≠ [] ∧
        dot ∉ P ∧ dot ∉ S := by
  intro hall
  obtain ⟨P, S, htoken, _, _, hP, hS⟩ := hall reference 1000 1060
    (layout 0 0 reference_P reference_S [dot]) reference_jwt reference_jwt
    (by decide +kernel) (by decide +kernel)
  have hthree : (layout 0 0 reference_P reference_S [dot]).count dot = 3 := by decide +kernel
  have hheader : HEADER_ENCODED.count dot = 0 := by decide
  rw [htoken] at hthree
  simp [List.count_append, List.count_eq_zero_of_not_mem hP, List.count_eq_zero_of_not_mem hS,
    hheader] at hthree

end JwtGrammar
