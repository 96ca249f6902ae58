import Ayahesa.LoopIteration
import Ayahesa.ByteSearch
import Ayahesa.SimultaneousReplace
import Ayahesa.CompatStrings
import Ayahesa.Base64urlCodec
import Ayahesa.KoreApi
import Ayahesa.JwtToken
import Ayahesa.JwtGrammar
import Ayahesa.HttpRequest
import Ayahesa.JwtRoundTrip
import Ayahesa.AuthMiddleware
import Ayahesa.KoreBuffer
import Ayahesa.ViewPasses
import Ayahesa.ViewDirectives
import Ayahesa.ViewSubstitution
import Ayahesa.ViewStatements
import Ayahesa.ViewTemplates
import Ayahesa.ViewMemorySafety
import Ayahesa.ViewPredefined
import Ayahesa.SplicedFragments
import Ayahesa.ViewTermination
import Ayahesa.HttpView
import Ayahesa.ViewComments
import Ayahesa.ViewConditionals
import Ayahesa.SlotStore
import Ayahesa.TreeStore
import Ayahesa.TreeInvariant
import Ayahesa.TreeLookup
import Ayahesa.CompatCopy
import Ayahesa.DecimalText
import Ayahesa.AllocatedBuffer
import Ayahesa.AppConfig
import Ayahesa.ConfigOverride
import Ayahesa.ConfigEnvironment
import Ayahesa.LineReader
import Ayahesa.IniParser
import Ayahesa.IniLines
import Ayahesa.IniCalls
import Ayahesa.IniDocument
import Ayahesa.IniRoundTrip
import Ayahesa.AppStart
import Ayahesa.ConfigLoading
import Ayahesa.ConfigSufficient
import Ayahesa.FileStream
import Ayahesa.AyaFile
import Ayahesa.StoredFiles
import Ayahesa.ResourceController
import Ayahesa.ResourceNames
import Ayahesa.ResourceIsolation
import Ayahesa.EventRuns
import Ayahesa.BasicAuth
import Ayahesa.AuthTotality
import Ayahesa.ConnectionCounter
import Ayahesa.ConfigQueries
import Ayahesa.SessionLifetime
import Ayahesa.SectionInterference
import Ayahesa.ConfigReload
import Ayahesa.MarkedSpans
import Ayahesa.CommentRemoval
import Ayahesa.TemplateInheritance
import Ayahesa.ArgumentSplitting
import Ayahesa.GivenUpDirectives
import Ayahesa.DomainName
import Ayahesa.FailedUploads
import Ayahesa.FetchedFiles
import Ayahesa.HeaderHiding
import Ayahesa.KeywordText
import Ayahesa.DatabaseSettings
import Ayahesa.StringLiterals
import Ayahesa.LoginQuery
import Ayahesa.CookieLookup
import Ayahesa.SplitLines
import Ayahesa.Continuations
import Ayahesa.RequestView
import Ayahesa.AbsentStrings
import Ayahesa.AllocatedPasses
import Ayahesa.IntegerFormatting
import Ayahesa.BoundedCopies
import Ayahesa.BufferSplicing
import Ayahesa.SignedPayloads
import Ayahesa.RandomBytes
import Ayahesa.StatusCounters
import Ayahesa.StatusPage
import Ayahesa.StringTokens
import Ayahesa.HeaderStorage
import Ayahesa.HeaderAccessors
import Ayahesa.RunRefinement
import Ayahesa.ResourceStore
import Ayahesa.LoginSessions
import Ayahesa.InterleavedThreads
import Ayahesa.BufferedBlocks
import Ayahesa.Blake2b
import Ayahesa.Argon2Memory
import Ayahesa.Argon2Hash
import Ayahesa.Argon2Base64
import Ayahesa.Argon2Fill
import Ayahesa.Argon2Encoding
import Ayahesa.PasswordHashes
import Ayahesa.LoginRuns
import Ayahesa.ChaCha
import Ayahesa.QuidIdentifier
import Ayahesa.HexNumerals
import Ayahesa.QuidText
import Ayahesa.TickCounters
import Ayahesa.QuidClock
import Ayahesa.KeptUploads
import Ayahesa.SeparationTriples
import Ayahesa.TreeHeap
import Ayahesa.AppHeap
