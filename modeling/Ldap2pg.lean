import Ldap2pg.Cmd.Blacklist
import Ldap2pg.Cmd.Connections
import Ldap2pg.Config.Panics
import Ldap2pg.Config.Spellings
import Ldap2pg.Inspect.RoleColumns
import Ldap2pg.Ldap.Command
import Ldap2pg.Ldap.DN.Print
import Ldap2pg.Ldap.Expansion
import Ldap2pg.Ldap.Initialize
import Ldap2pg.Lists.Odometer
import Ldap2pg.Privileges.Altered
import Ldap2pg.Privileges.Empty
import Ldap2pg.Privileges.Inspector
import Ldap2pg.Privileges.Legacy
import Ldap2pg.Privileges.Recognised
import Ldap2pg.Privileges.Retry
import Ldap2pg.Pyfmt.Quoting
import Ldap2pg.Roles.Interrupted
import Ldap2pg.Roles.Ownership
import Ldap2pg.Tree.Walk
import Ldap2pg.Wanted.Dropped
import Ldap2pg.Wanted.Orders
import Ldap2pg.Wanted.Settings
import Ldap2pg.Wanted.Unresolved
