import Zebrafish.Lib.Lru
import Zebrafish.Lib.Format
import Zebrafish.Dns.Message
import Zebrafish.Dns.Wire
import Zebrafish.Dns.Cache
import Zebrafish.Dns.History
import Zebrafish.Dns.Serve
import Zebrafish.Dns.Doh
import Zebrafish.Dns.Server
import Zebrafish.Dns.Tasks
import Zebrafish.Toml.Serde
import Zebrafish.ConfigTool.Schema
import Zebrafish.Dns.Config
import Zebrafish.ConfigTool.Path
import Zebrafish.ConfigTool.Get
import Zebrafish.ConfigTool.List
import Zebrafish.ConfigTool.Names
import Zebrafish.ConfigTool.Eval
import Zebrafish.ConfigTool.Document
import Zebrafish.ConfigTool.Edit
import Zebrafish.ConfigTool.Commands
import Zebrafish.ConfigTool.RoundTrip
import Zebrafish.Toml.Statement
import Zebrafish.Toml.Reader
import Zebrafish.ConfigTool.Load
import Zebrafish.Dns.Lifetime
import Zebrafish.Dns.Nss
import Zebrafish.Dns.Bootstrap
import Zebrafish.ConfigTool.Store
import Zebrafish.ConfigTool.Writers
import Zebrafish.System.Upgrade
import Zebrafish.Lib.Words
import Zebrafish.System.Persistence
import Zebrafish.Lib.Script
import Zebrafish.System.NbdHeal
import Zebrafish.System.NbdGuard
import Zebrafish.Toml.Lawful
import Zebrafish.ConfigTool.Identity
import Zebrafish.Lib.Sweep
import Zebrafish.Compose.Networks
import Zebrafish.Compose.Listed
import Zebrafish.Compose.Order
import Zebrafish.Lib.Session
import Zebrafish.ConfigTool.Variables
import Zebrafish.System.Discover
import Zebrafish.Lib.Echo
import Zebrafish.System.WireGuard
import Zebrafish.System.Tunnels
import Zebrafish.Lib.Ini
import Zebrafish.System.TunnelFile
import Zebrafish.Toml.Grammar
import Zebrafish.ConfigTool.ListToml
import Zebrafish.ConfigTool.Spellings
import Zebrafish.ConfigTool.Validate
import Zebrafish.System.NbdCooldown
import Zebrafish.ConfigTool.PathGrammar
import Zebrafish.Lib.Calendar
import Zebrafish.Lib.Padded
import Zebrafish.Dns.Timestamp
import Zebrafish.Lib.Search
import Zebrafish.ConfigTool.Efi
import Zebrafish.Lib.Filter
import Zebrafish.System.Hostname
import Zebrafish.Lib.Json
import Zebrafish.System.Address
import Zebrafish.System.Credentials
import Zebrafish.Compose.Service
import Zebrafish.Compose.Startup
import Zebrafish.Compose.Lifecycle
import Zebrafish.System.Setup
import Zebrafish.Dns.AddrTuples
import Zebrafish.ConfigTool.Change
import Zebrafish.ConfigTool.TwoFiles
import Zebrafish.System.Recovery
import Zebrafish.Lib.JsonText
import Zebrafish.Dns.QueryLog
import Zebrafish.ConfigTool.ListJson
import Zebrafish.Dns.Lookup
import Zebrafish.Lib.Trace
import Zebrafish.System.Sections
import Zebrafish.System.BootNbd
import Zebrafish.System.Mounts
import Zebrafish.ConfigTool.EfiMount
import Zebrafish.System.EfiDir
import Zebrafish.Lib.Ifup
import Zebrafish.System.Interfaces
import Zebrafish.System.AuthorizedKeys
