import QuackMail.Codec.Accumulator
import QuackMail.Ical.Folding
import QuackMail.Mime.QuotedPrintable
import QuackMail.Mime.EncodedWord
import QuackMail.Policy.Wildmat
import QuackMail.Policy.Acl
import QuackMail.Json.Integers
import QuackMail.Ical.Vcard
import QuackMail.Store.Quota
import QuackMail.Ical.Busy
import QuackMail.Dav.Paths
import QuackMail.Net.Telnet
import QuackMail.Ical.Civil
import QuackMail.Fetch.Literals
import QuackMail.History.Chain
import QuackMail.Dkim.Agreement
import QuackMail.Dkim.Canonical
import QuackMail.Spf.Budget
import QuackMail.Spf.Prefix
import QuackMail.Store.Sync
import QuackMail.Imap.StartTls
import QuackMail.Imap.ReadOnly
import QuackMail.Store.Interleave
import QuackMail.Delivery.Outcome
import QuackMail.Imap.Access
import QuackMail.Policy.Alias
import QuackMail.Store.Token
import QuackMail.Store.Retention
import QuackMail.Imap.Grants
import QuackMail.Imap.RoomNames
import QuackMail.Imap.Wildcards
import QuackMail.Imap.SequenceSet
import QuackMail.Imap.StoreFlags
import QuackMail.Store.Versions
import QuackMail.Store.Newsgroups
import QuackMail.Jmap.PatchOutcome
import QuackMail.Jmap.State
import QuackMail.Jmap.Query
import QuackMail.Jmap.Floors
import QuackMail.Sieve.Lexer
import QuackMail.Sieve.Parser
import QuackMail.Sieve.Globber
import QuackMail.Sieve.Evaluate
import QuackMail.Sieve.Numbers
import QuackMail.Sieve.ImplicitKeep
import QuackMail.Listserv.Lists
import QuackMail.Listserv.Addresses
import QuackMail.Listserv.Subscriptions
import QuackMail.Listserv.Consent
import QuackMail.Listserv.ExactlyOnce
import QuackMail.Http.Framing
import QuackMail.Http.Reader
import QuackMail.Http.Response
import QuackMail.Xml.Text
import QuackMail.Ical.InRange
import QuackMail.Ical.Receive
import QuackMail.Lib.Binary64
import QuackMail.Json.Utf8
import QuackMail.Json.Value
import QuackMail.Json.Numbers
import QuackMail.Net.DotStuffed
import QuackMail.Net.DotWriters
import QuackMail.Smtp.Data
import QuackMail.Web.Session
import QuackMail.Web.Lifetime
import QuackMail.Accounts.Credentials
import QuackMail.Accounts.Removal
import QuackMail.Smtp.Transaction
import QuackMail.Pop3.Maildrop
import QuackMail.Pop3.Rfc1939
import QuackMail.Relay.Exactly
import QuackMail.Fetch.Histories
import QuackMail.Delivery.Promises
import QuackMail.ManageSieve.ScriptStore
import QuackMail.Policy.SendLimit
import QuackMail.Policy.PublicSuffix
import QuackMail.Dav.Undisturbed
import QuackMail.ManageSieve.Literals
import QuackMail.Files.Exclusion
import QuackMail.Files.DropBox
import QuackMail.Dav.Identity
import QuackMail.Tz.Overflow
import QuackMail.Nntp.InStep
import QuackMail.Ssh.Intact
import QuackMail.Ssh.Strict
import QuackMail.Xmodem.Intact
