import Ayahesa.ConfigSufficient

/-! # The composed domain name

Instance and domain are copied with a bound, the separator between them is not. It has no room
behind an instance that fills the buffer. -/
namespace DomainName

open CMemory CompatStrings CompatCopy AppConfig AppStart ConfigOverride ConfigSufficient

def composed (value domain : Bytes) : Bytes :=
  strtolower ((value ++ dotted domain).take 127)

/-- The name is composed inside the buffer, whatever an earlier call has left there, if and only
if no separator is due or the instance leaves room for it. -/
theorem app_domainname_iff (copy : KoreCopy) (app : App) (domain : Bytes) (domainname : Block)
    (hget : config_get_str app (bytes "app.domain") none = .ok (some domain))
    (hlen : domainname.length = 128) (hvalue : 0 ∉ app.value) (hdomain : 0 ∉ domain) :
    app_domainname copy app domainname = .ok (some (composed app.value domain)) ↔
      domain.head? = some 46 ∨ app.value.length < 127 := by
  have heq := app_domainname_eq copy hget hlen hvalue hdomain
  constructor
  · intro h
    by_contra hbad
    rw [heq, if_neg hbad] at h
    cases h
  · intro hroom
    rw [heq, if_pos hroom]
    rfl

def named (value domain : Bytes) : App :=
  let app := application_create value
  { app with config := { app.config with
      alloc_cnt := 1
      ptr := [some ⟨bytes "app.domain", .T_STRING domain⟩] } }

theorem named_domain (value domain : Bytes) :
    config_get_str (named value domain) (bytes "app.domain") none = .ok (some domain) := by
  rfl

theorem app_domainname_iff_short :
    app_domainname plain_copy (named (bytes "ab-CDEFGH") (bytes "Q.net"))
      (List.replicate 128 (some 0)) = .ok (some (composed (bytes "ab-CDEFGH") (bytes "Q.net"))) :=
  (app_domainname_iff plain_copy (named (bytes "ab-CDEFGH") (bytes "Q.net")) (bytes "Q.net")
    (List.replicate 128 (some 0)) (named_domain _ _) List.length_replicate (by decide)
    (by decide)).mpr
    (Or.inr (by decide))

/-- An instance that fills the buffer; a line of the configuration file can hold it. -/
def filling : Bytes := List.replicate 127 97

theorem filling_length : filling.length = 127 := List.length_replicate

theorem separator_over :
    ¬∀ (copy : KoreCopy) (app : App) (domain : Bytes) (domainname : Block),
      config_get_str app (bytes "app.domain") none = .ok (some domain) →
      domainname.length = 128 → 0 ∉ app.value → 0 ∉ domain →
      app_domainname copy app domainname = .ok (some (composed app.value domain)) := by
  intro h
  have hvalue : 0 ∉ filling := by simp [filling]
  have hget := named_domain filling (bytes "x")
  have hbuffer : (List.replicate 128 (some 0) : Block).length = 128 := List.length_replicate
  have hcall := h plain_copy (named filling (bytes "x")) (bytes "x") (List.replicate 128 (some 0))
    hget hbuffer hvalue (by decide)
  rw [app_domainname_eq plain_copy hget hbuffer hvalue (by decide), if_neg] at hcall
  · cases hcall
  · rintro (hdot | hshort)
    · exact absurd hdot (by decide)
    · exact absurd hshort (filling_length ▸ Nat.lt_irrefl 127)

end DomainName
