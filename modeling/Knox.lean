import Knox.Types
import Knox.Versions
import Knox.Rotation
import Knox.VersionHash
import Knox.Server.KeyDB.TempDB
import Knox.Server.KeyDB.Store
import Knox.Server.KeyDB.Cryptor
import Knox.Server.KeyDB.Binding
import Knox.Server.KeyDB.SQL
import Knox.Server.KeyManager
import Knox.Server.Records
import Knox.Server.Auth
import Knox.Server.Spiffe
import Knox.Server.SubjectAltName
import Knox.Server.Routes
import Knox.Server.Router
import Knox.Server.Authentication
import Knox.Server.Serve
import Knox.Server.Concurrent
import Knox.Server.Optimistic
import Knox.Server.Refinement
import Knox.Server.Access
import Knox.Server.Reads
import Knox.Server.Migrate
import Knox.Server.Linearizable
import Knox.Server.Authorized
import Knox.Client.Daemon
import Knox.Client.HTTP
import Knox.Client.Files
import Knox.Client.Register
import Knox.Client.API
