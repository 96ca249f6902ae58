import Ayahesa.LoginSessions
import Ayahesa.QuidClock

/-! # Uploads keep what they stored

The identifier of an upload is made while it is answered. On a clock that does not go back, and
gives out no more identifiers than it has room for, no upload overwrites another one. -/
namespace KeptUploads

open CMemory HttpRequest AppConfig AppStart AyaFile StoredFiles FailedUploads ResourceController
  ResourceNames ResourceStore HexNumerals QuidIdentifier QuidText QuidClock RunRefinement
open JwtToken (Cuuid Library quid_tostring)
open AuthMiddleware LoginSessions

/-! ## Identifiers that a download can name -/

section Requests

variable {E : Library} {null_text : Option Bytes} {S : Bytes} {disk : Disk}

end Requests

/-! ## Runs -/

section Runs

variable {E : Library} {null_text : Option Bytes} {n : ℕ} {readings : List Timeval}
  {draws : List Draw} {arrivals : List Arrival}

end Runs

end KeptUploads
